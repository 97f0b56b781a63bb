import AlphaMachine.Proofs.Block.Accesses
import AlphaMachine.Proofs.Block.Floating

/-!
# Compiled instructions

Every word with an operation has code, and the code has the effect of the word
(`Block.realizes_lowered`).  Where an operation has no code of its own, the code calls a helper
that executes the word (`Block.realizes_interpret`).

In a block the cycle count of the processor stands still: the engine adds the retired instructions
afterwards.  A word is therefore executed with the count it would have had, which the helper works
out from its position in the block, and the count is put back (`Linkage.outcome`).
-/

namespace AlphaMachine

open Host

namespace Block

variable {link : Linkage} {s : Host.State} {pc : UInt64} {word : UInt32}

/-- The cycle count at an instruction of the block: one for each instruction before it. -/
def Linkage.cyclesAt (link : Linkage) (pc : UInt64) : UInt64 :=
  link.cycles + (pc - link.start) / 4

/-- What the word at `pc` does to a machine in the block. -/
def Linkage.outcome (link : Linkage) (m : Machine) (word : UInt32) (pc : UInt64) : Outcome :=
  (execute word pc (m.atCycles (link.cyclesAt pc))).map (·.atCycles m.cpu.cycles)

theorem Linkage.outcome_of_operation (link : Linkage) {op : Operation}
    (hop : Operation.ofInstruction? (.decode word) = some op) (m : Machine) (pc : UInt64) :
    link.outcome m word pc =
      (op.run pc (.decode word) (m.atCycles (link.cyclesAt pc))).map (·.atCycles m.cpu.cycles) := by
  rw [outcome, execute_of_operation hop]

theorem Linkage.outcome_keeps (link : Linkage) (m : Machine) (word : UInt32) (pc : UInt64) :
    (link.outcome m word pc).Keeps pc m := by
  have hkeeps := execute_keeps word pc (m.atCycles (link.cyclesAt pc))
  have hback {m' : Machine} (h : (m.atCycles (link.cyclesAt pc)).Keeps m') :
      m.Keeps (m'.atCycles m.cpu.cycles) :=
    ⟨h.pc, rfl, h.excAddr, h.mode, h.fpEnabled, h.pendingTrap, h.pendingTrapAddr, h.base, h.size⟩
  unfold Linkage.outcome
  cases h : execute word pc (m.atCycles (link.cyclesAt pc)) with
  | done m' flow =>
    rw [h] at hkeeps
    exact hback hkeeps
  | trapped m' trap =>
    rw [h] at hkeeps
    exact ⟨⟨hback hkeeps.1.toKeeps, hkeeps.1.halted⟩, hkeeps.2⟩

theorem Linkage.flow_of_outcome {m m' : Machine} {flow : Flow} (hends : endsAt word = false)
    (h : link.outcome m word pc = .done m' flow) : flow = .next := by
  have hstraight := execute_straight hends pc (m.atCycles (link.cyclesAt pc))
  unfold Linkage.outcome at h
  cases hexecute : execute word pc (m.atCycles (link.cyclesAt pc)) with
  | done m'' flow' =>
    rw [hexecute] at h hstraight
    cases h
    exact hstraight.2
  | trapped m'' trap =>
    rw [hexecute] at h
    cases h

/-! ### The interpreting helper -/

theorem helpInterpret_eq (link : Linkage) (m : Machine) (word : UInt32) (pc : UInt64) :
    helpInterpret link m word pc =
      match link.outcome m word pc with
      | .done m' flow => (flow.nextPc pc, m', flow = .flush)
      | .trapped m' trap => (trap.pc, pend m' trap, false) := by
  simp only [helpInterpret, Linkage.outcome]
  change (match execute word pc (m.atCycles (link.cyclesAt pc)) with
    | .done m' flow => _
    | .trapped m' trap => _) = _
  cases execute word pc (m.atCycles (link.cyclesAt pc)) <;> rfl

/-- The call of the interpreting helper. -/
theorem exec_callInterpret (hs : Ready link s) (pc : UInt64) (word : UInt32) {rest : Code} :
    ∃ s', exec link (instrs [.mov .qword .rdi .r12, .movImm .rsi word.toUInt64, .movImm .rdx pc] ++
        (call .interpret ++ rest)) s = exec link rest s' ∧ Kept s s' ∧
      s'.gpr .rax = (helpInterpret link s.guest word pc).1 ∧
      s'.guest = (helpInterpret link s.guest word pc).2.1 ∧
      s'.flush = (s.flush || (helpInterpret link s.guest word pc).2.2) := by
  let s₁ := (((s.set .rdi (s.gpr .r12)).set .rsi word.toUInt64).set .rdx pc).set .rax
    (link.address .interpret)
  have hframe : s₁.gpr .rdi = link.frame := hs.frame
  have hword : (s₁.gpr .rsi).toUInt32 = word := UInt32.toUInt32_toUInt64 word
  let s₂ := { link.returned s₁ (helpInterpret link s.guest word pc).1
      (helpInterpret link s.guest word pc).2.1 with
    flush := s.flush || (helpInterpret link s.guest word pc).2.2 }
  have hcall : link.callHelper s₁ .interpret = some s₂ := by
    simp only [Linkage.callHelper, hframe, if_true, hword]
    rfl
  have hstack : s₂.liveStack = s.liveStack :=
    liveStack_returned link s₁ (helpInterpret link s.guest word pc).1
      (helpInterpret link s.guest word pc).2.1
  refine ⟨s₂, ?_, ⟨rfl, rfl, rfl, hstack⟩, rfl, rfl, rfl⟩
  rw [exec_of_steps rfl, exec_call]
  exact congrArg (Option.bind · (exec link rest)) hcall

/-- What follows the call: an instruction that ends the block leaves, another one only if it left a
trap behind. -/
theorem exec_afterInterpret (hstate : s.gpr .rbx = link.state) (endsBlock : Bool) :
    ∃ flags, exec link (if endsBlock then [.jump .exit]
        else [.instr (.cmpMem .rbx (field Layout.pendingTrap) 0), .jumpIf .ne .exit]) s =
      some (if endsBlock = true ∨ s.guest.cpu.pendingTrap ≠ 0 then some .exit else none,
        { s with flags }) := by
  cases endsBlock with
  | true => exact ⟨s.flags, rfl⟩
  | false =>
    obtain ⟨flags, hexec⟩ := exec_cmpPending hstate (unbound_nil .exit)
    refine ⟨flags, hexec.trans ?_⟩
    by_cases hpending : s.guest.cpu.pendingTrap = 0
    · simp [hpending]
    · simp [hpending]

/-- **The interpreting helper is correct.**  Its code has the effect of the word. -/
theorem realizes_interpret (hs : Ready link s) (pc : UInt64) (word : UInt32) :
    Realizes link (interpret pc word (endsAt word)) pc (endsAt word) s
      (link.outcome s.guest word pc) := by
  have hkeeps := link.outcome_keeps s.guest word pc
  obtain ⟨s₁, hexec, hkept, hrax, hguest, hflush⟩ := exec_callInterpret hs pc word
  rw [helpInterpret_eq] at hrax hguest hflush
  obtain ⟨flags, hafter⟩ :=
    exec_afterInterpret (hkept.rbx.trans hs.state) (endsAt word)
  have hkept' : Kept s { s₁ with flags } := ⟨hkept.rbx, hkept.rsp, hkept.r12, hkept.stack⟩
  unfold interpret
  rw [List.append_assoc]
  cases houtcome : link.outcome s.guest word pc with
  | done m flow =>
    rw [houtcome] at hrax hguest hflush hkeeps
    have hpending : s₁.guest.cpu.pendingTrap = 0 := by
      rw [hguest]
      exact hkeeps.pendingTrap.trans hs.pending
    have hposition : (if endsAt word = true ∨ s₁.guest.cpu.pendingTrap ≠ 0 then some Label.exit
        else none) = if endsAt word then some .exit else none := by
      simp [hpending]
    rw [hposition] at hafter
    refine ⟨_, hexec.trans hafter, hkept', hguest, hflush, ?_⟩
    split
    case isTrue hends => exact hrax
    case isFalse hends => exact link.flow_of_outcome (Bool.eq_false_iff.2 hends) houtcome
  | trapped m trap =>
    rw [houtcome] at hrax hguest hflush hkeeps
    have hpending : s₁.guest.cpu.pendingTrap ≠ 0 := by
      rw [hguest]
      exact pendingTrap_pend m trap
    have hposition : (if endsAt word = true ∨ s₁.guest.cpu.pendingTrap ≠ 0 then some Label.exit
        else none) = some .exit := if_pos (.inr hpending)
    rw [hposition] at hafter
    refine ⟨_, _, hexec.trans hafter, rfl, hkept', hguest, ?_, ?_⟩
    · exact hflush.trans (Bool.or_false _)
    · exact hrax.trans hkeeps.2

end Block

open Block

variable {link : Linkage} {s : Host.State} {pc : UInt64}

/-! ### All words -/

/-- The code that an operation has of its own. -/
theorem Operation.Fits.realizes_of_lower? {op : Operation} {i : Instruction} {code : Code}
    (hfits : op.Fits i) (h : op.lower? pc i = some code) (hs : Ready link s) :
    Realizes link code pc op.leavesLine s (op.run pc i s.guest) := by
  cases hfits with
  | operate op opcode ra rb function rc => exact (op.native_of_lower? h hs).realizes hs
  | float op opcode fa fb function fc => exact (op.native_of_lower? function h hs).realizes hs
  | memory op opcode ra rb displacement => exact op.realizes_of_lower? hs h
  | branch op opcode ra displacement =>
    cases h
    exact (op.native_lower hs displacement).realizes hs
  | pal => cases h

theorem Operation.ne_readCycles_of_lower? {op : Operation} {i : Instruction} {code : Code}
    (h : op.lower? pc i = some code) : op ≠ .memory .readCycles := by
  rintro rfl
  cases i <;> cases h

/-- The code of an operation, its own or the call of the helper, has the effect of the word. -/
theorem Block.realizes_of_operation {word : UInt32} {op : Operation}
    (hop : Operation.ofInstruction? (.decode word) = some op) (pc : UInt64) (hs : Ready link s) :
    Realizes link ((op.lower? pc (.decode word)).getD (interpret pc word (endsAt word))) pc
      (endsAt word) s (link.outcome s.guest word pc) := by
  cases hcode : op.lower? pc (.decode word) with
  | none => exact realizes_interpret hs pc word
  | some code =>
    have hends : op.leavesLine = endsAt word := Operation.leavesLine_eq hop
    have houtcome : link.outcome s.guest word pc = op.run pc (.decode word) s.guest := by
      rw [link.outcome_of_operation hop]
      exact Operation.map_atCycles_run _ (Operation.ne_readCycles_of_lower? hcode) _
    rw [houtcome, ← hends]
    exact (Operation.fits_decode hop).realizes_of_lower? hcode hs

/-- **Compiled instructions are correct.**  Every word with an operation has code, and from any
state of the host inside a block the code has the effect of executing the word with the cycle count
of its position: a completed word leaves the new machine behind, with the cycle count as it was and
a request to discard code exactly if the word makes one, and a trap ends in the pending slot, with
its data address, and at the address of the word. -/
theorem Block.realizes_lowered {word : UInt32} {op : Operation}
    (hop : Operation.ofInstruction? (.decode word) = some op) (pc : UInt64) {link : Linkage}
    {s : Host.State} (hs : Ready link s) :
    ∃ code, lowerWord? pc word = some code ∧
      Realizes link code pc (endsAt word) s (link.outcome s.guest word pc) := by
  have hlower : lowerWord? pc word =
      some ((op.lower? pc (.decode word)).getD (interpret pc word (endsAt word))) := by
    simp only [lowerWord?_eq, hop, Option.map_some]
  exact ⟨_, hlower, realizes_of_operation hop pc hs⟩

/-- The hypotheses can be met, here by a read of the cycle count behind two other instructions, a
load from memory that is not there and a division by a floating zero. -/
theorem Block.realizes_lowered_overflowing :
    Operation.ofInstruction? (.decode 0x6020C000) = some (.memory .readCycles) ∧
      Operation.ofInstruction? (.decode 0xA4600008) = some (.memory (.load .quad)) ∧
      Operation.ofInstruction? (.decode 0x58221463) = some (.float (.arith .div .double)) ∧
      Ready plainLinkage (inside plainLinkage overflowing) ∧
      (∃ code, lowerWord? 0x10008 0x6020C000 = some code ∧
        Realizes plainLinkage code 0x10008 (endsAt 0x6020C000) (inside plainLinkage overflowing)
          (overflowing.returnInt 1 2)) ∧
      (∃ code, lowerWord? 0x10004 0xA4600008 = some code ∧
        Realizes plainLinkage code 0x10004 (endsAt 0xA4600008) (inside plainLinkage overflowing)
          (.trapped overflowing ⟨.accessViolation, 0x10004, some 8⟩)) ∧
      ∃ code, lowerWord? 0x10000 0x58221463 = some code ∧
        Realizes plainLinkage code 0x10000 (endsAt 0x58221463) (inside plainLinkage overflowing)
          (overflowing.raise .floatDivideByZero 0x10000) := by
  have hcycles : Operation.ofInstruction? (.decode 0x6020C000) = some (.memory .readCycles) :=
    Operation.ofInstruction?_of_registered ⟨.misc, some 0x30⟩ rfl (by decide)
  have hload : Operation.ofInstruction? (.decode 0xA4600008) = some (.memory (.load .quad)) :=
    Operation.ofInstruction?_of_registered ⟨.ldq, none⟩ rfl (by decide)
  have hdivide : Operation.ofInstruction? (.decode 0x58221463) =
      some (.float (.arith .div .double)) :=
    Operation.ofInstruction?_of_registered ⟨.fltI, some 0x23⟩ rfl (by decide)
  have hready : Ready plainLinkage (inside plainLinkage overflowing) := ready_inside _ rfl
  have hread : plainLinkage.outcome overflowing 0x6020C000 0x10008 =
      overflowing.returnInt 1 2 := by
    rw [plainLinkage.outcome_of_operation hcycles]
    decide
  have hrefused : plainLinkage.outcome overflowing 0xA4600008 0x10004 =
      .trapped overflowing ⟨.accessViolation, 0x10004, some 8⟩ := by
    rw [plainLinkage.outcome_of_operation hload]
    decide
  have hzero : plainLinkage.outcome overflowing 0x58221463 0x10000 =
      overflowing.raise .floatDivideByZero 0x10000 := by
    rw [plainLinkage.outcome_of_operation hdivide]
    decide
  exact ⟨hcycles, hload, hdivide, hready, hread ▸ realizes_lowered hcycles 0x10008 hready,
    hrefused ▸ realizes_lowered hload 0x10004 hready,
    hzero ▸ realizes_lowered hdivide 0x10000 hready⟩

end AlphaMachine
