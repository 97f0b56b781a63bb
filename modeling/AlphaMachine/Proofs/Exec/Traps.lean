import AlphaMachine.Proofs.Exec.Frame

/-!
# Traps are precise

An instruction that raises a trap has done nothing: a handler finds the registers, the reservation
and the memory as they were before the instruction, and can start it again.  There is one
exception.  A conversion of a quadword to a longword that checks for overflow
(`Instruction.checksLong`) notes the overflow in the floating control register before it traps.

* `Outcome.Atomic` : a trap leaves the machine as it was;
* `Operation.run_atomic` : this holds of every operation but the conversion;
* `Operation.ofInstruction?_eq_quadToLong_iff` : the words with that operation, by their opcode and
  function code;
* `trapped_machine` : the machine after a trap, for every word.
-/

namespace AlphaMachine

/-! ### Outcomes -/

namespace Outcome

/-- A trap leaves the machine as it was. -/
def Atomic (m : Machine) : Outcome → Prop
  | .done _ _ => True
  | .trapped m' _ => m' = m

variable {m : Machine} {pc : UInt64}

theorem Atomic.eq {o : Outcome} (h : o.Atomic m) {m' : Machine} {trap : Trap}
    (ho : o = .trapped m' trap) : m' = m := by
  subst ho
  exact h

theorem atomic_done (m' : Machine) (flow : Flow) : (Outcome.done m' flow).Atomic m := trivial

theorem atomic_raise (kind : TrapKind) : (m.raise kind pc).Atomic m := rfl

theorem atomic_returnChecked (r : Reg) (value : Option UInt64) :
    (m.returnChecked pc r value).Atomic m := by
  cases value with
  | none => exact atomic_raise _
  | some value => exact atomic_done ..

theorem atomic_requireFp {k : Outcome} (h : k.Atomic m) : (m.requireFp pc k).Atomic m := by
  unfold Machine.requireFp
  split
  · exact h
  · exact atomic_raise _

theorem atomic_loadThen {address : UInt64} {size : AccessSize} {k : UInt64 → Outcome}
    (h : ∀ value, (k value).Atomic m) : (m.loadThen pc address size k).Atomic m := by
  unfold Machine.loadThen
  split
  · exact h _
  · rfl

theorem atomic_storeInt (address : UInt64) (size : AccessSize) (value : UInt64) :
    (m.storeInt pc address size value).Atomic m := by
  unfold Machine.storeInt
  split
  · rfl
  · exact atomic_done ..

end Outcome

/-! ### Operations -/

section Families

open Outcome

variable {m : Machine} {pc : UInt64}

theorem OperateOp.run_atomic (op : OperateOp) (ra : Reg) (rb : Operand) (rc : Reg) :
    (op.run pc ra rb rc m).Atomic m := by
  cases op with
  | arithChecked | multiplyChecked => exact atomic_returnChecked ..
  | moveIf condition =>
    simp only [run]
    split <;> exact atomic_done ..
  | moveFromFloat precision => cases precision <;> exact atomic_requireFp (atomic_done ..)
  | _ => exact atomic_done ..

theorem FloatOp.runEnabled_atomic {op : FloatOp} (hop : op ≠ .quadToLong) (fa fb : Reg)
    (function : Nat) (fc : Reg) : (op.runEnabled pc fa fb function fc m).Atomic m := by
  cases op with
  | quadToLong => exact absurd rfl hop
  | moveFromInt precision => cases precision <;> exact atomic_done ..
  | arith op precision =>
    cases op with
    | div =>
      simp only [runEnabled]
      split
      · exact atomic_raise _
      · exact atomic_done ..
    | _ => exact atomic_done ..
  | moveIf condition =>
    simp only [runEnabled]
    split <;> exact atomic_done ..
  | _ => exact atomic_done ..

theorem MemoryOp.runLoad_atomic (size : AccessSize) (address : UInt64) (ra : Reg) :
    (runLoad size pc address ra m).Atomic m := by
  unfold runLoad
  split
  · exact atomic_done ..
  · exact atomic_loadThen fun _ => atomic_done ..

-- The reservation is dropped only once the store is known to succeed.
theorem MemoryOp.runStoreConditional_atomic (size : AccessSize) (address : UInt64) (ra : Reg) :
    (runStoreConditional size pc address ra m).Atomic m := by
  simp only [runStoreConditional]
  split
  · split
    · rfl
    · exact atomic_done ..
  · exact atomic_done ..

theorem MemoryOp.run_atomic (op : MemoryOp) (ra rb : Reg) (displacement : Int16) :
    (op.run pc ra rb displacement m).Atomic m := by
  cases op with
  | load | loadUnaligned => exact runLoad_atomic ..
  | loadLocked width => exact atomic_loadThen fun _ => atomic_done ..
  | store | storeUnaligned => exact atomic_storeInt ..
  | storeConditional width => exact runStoreConditional_atomic ..
  | floatLoad precision =>
    refine atomic_requireFp ?_
    split
    · exact atomic_done ..
    · cases precision <;> exact atomic_loadThen fun _ => atomic_done ..
  | floatStore precision => cases precision <;> exact atomic_requireFp (atomic_storeInt ..)
  | privileged => exact atomic_raise _
  | _ => exact atomic_done ..

theorem BranchOp.run_atomic (op : BranchOp) (ra : Reg) (displacement : Int) :
    (op.run pc ra displacement m).Atomic m := by
  cases op with
  | onFloat condition => exact atomic_requireFp (atomic_done ..)
  | _ => exact atomic_done ..

theorem PalOp.run_atomic (op : PalOp) : (op.run pc m).Atomic m := by
  cases op with
  | halt =>
    simp only [run]
    split
    · exact atomic_done ..
    · exact atomic_raise _
  | breakpoint | systemCall | generateTrap => exact atomic_raise _
  | _ => exact atomic_done ..

/-- Every operation but one leaves the machine alone when it traps. -/
theorem Operation.run_atomic {op : Operation} (hop : op ≠ .float .quadToLong) (i : Instruction) :
    (op.run pc i m).Atomic m := by
  unfold Operation.run
  split
  · exact OperateOp.run_atomic ..
  · exact atomic_requireFp (FloatOp.runEnabled_atomic (fun h => hop (congrArg _ h)) ..)
  · exact MemoryOp.run_atomic ..
  · exact BranchOp.run_atomic ..
  · exact PalOp.run_atomic ..
  · exact atomic_raise _

end Families

/-! ### The conversion to a longword -/

/-- The machine with an integer overflow noted in the floating control register. -/
def Machine.noteOverflow (m : Machine) : Machine :=
  { m with cpu.fpcr := m.cpu.fpcr ||| (Fpcr.integerOverflow ||| Fpcr.sum) }

/-- The conversion traps when floating instructions are disabled, without any effect, or when the
check fails, which it notes. -/
theorem FloatOp.of_quadToLong_trapped {pc : UInt64} {fa fb : Reg} {function : Nat} {fc : Reg}
    {m m' : Machine} {trap : Trap}
    (h : FloatOp.quadToLong.run pc fa fb function fc m = .trapped m' trap) :
    (trap.kind ≠ .integerOverflow ∧ m' = m) ∨
      (trap.kind = .integerOverflow ∧ checksOverflow function = true ∧ m' = m.noteOverflow) := by
  simp only [run, Machine.requireFp, runEnabled] at h
  split at h
  · split at h
    · next hchecks =>
      cases h
      exact .inr ⟨rfl, hchecks.1, rfl⟩
    · cases h
  · cases h
    exact .inl ⟨by simp, rfl⟩

/-- The function slot of the conversion. -/
def Operation.quadToLongSlot : Nat := 0x30

/-- The conversion of a quadword to a longword with its overflow check on. -/
def Instruction.checksLong : Instruction → Bool
  | .floatOperate .fltL _ _ function _ =>
    function % 64 = Operation.quadToLongSlot && checksOverflow function
  | _ => false

theorem Opcode.slot?_fltL {function slot : Nat} (h : Opcode.slot? .fltL function = some slot) :
    function % 64 = slot :=
  Option.some.inj (slot?_eq_some_iff.1 h).2

/-- An operation is the conversion exactly if its instruction has the key of the conversion. -/
theorem Operation.ofInstruction?_eq_quadToLong_iff {i : Instruction} {op : Operation}
    (h : ofInstruction? i = some op) :
    op = .float .quadToLong ↔ i.key? = some ⟨.fltL, some quadToLongSlot⟩ := by
  obtain ⟨key, hkey, hP⟩ := entry_of_ofInstruction?
    (P := fun e => decide (e.2 = .float .quadToLong) ==
      decide (e.1 = ⟨.fltL, some quadToLongSlot⟩)) (by decide) h
  have hiff : op = .float .quadToLong ↔ key = ⟨.fltL, some quadToLongSlot⟩ := by
    simpa using hP
  rw [hiff, hkey, Option.some.injEq]

/-- Among the words that have an operation, those that check for overflow are the conversions with
the check on. -/
theorem Instruction.checksLong_iff {opcode : Opcode} {fa fb fc : Reg} {function : Nat}
    {op : Operation}
    (h : Operation.ofInstruction? (.floatOperate opcode fa fb function fc) = some op) :
    (Instruction.floatOperate opcode fa fb function fc).checksLong = true ↔
      op = .float .quadToLong ∧ checksOverflow function = true := by
  rw [Operation.ofInstruction?_eq_quadToLong_iff h]
  obtain ⟨r, -, hkey, -⟩ := Operation.ofInstruction?_eq_some_iff.1 h
  obtain ⟨slot, hslot, hslotKey⟩ := Option.map_eq_some_iff.1 hkey
  rw [hkey, ← hslotKey, Option.some.injEq, Key.mk.injEq, Option.some.injEq]
  constructor
  · intro hc
    cases opcode <;> simp only [checksLong, Bool.false_eq_true, Bool.and_eq_true,
      decide_eq_true_eq] at hc
    have hs : function % 64 = slot := Opcode.slot?_fltL hslot
    exact ⟨⟨rfl, hs.symm.trans hc.1⟩, hc.2⟩
  · rintro ⟨⟨hopcode, hs⟩, hc⟩
    have hfltL : opcode = .fltL := hopcode
    subst hfltL
    have hmod : function % 64 = slot := Opcode.slot?_fltL hslot
    simp [checksLong, hmod, hs, hc]

/-! ### Words -/

section Words

variable {word : UInt32} {pc : UInt64} {m m' : Machine} {trap : Trap}

/-- The machine after a trap: as before, or with the overflow of a checked conversion noted. -/
theorem trapped_machine (h : execute word pc m = .trapped m' trap) :
    m' = if trap.kind = .integerOverflow ∧ (Instruction.decode word).checksLong = true
      then m.noteOverflow else m := by
  cases hop : Operation.ofInstruction? (.decode word) with
  | none =>
    rw [execute_of_none hop] at h
    cases h
    simp
  | some op =>
    rw [execute_of_operation hop] at h
    have hfits := Operation.fits_decode hop
    generalize Instruction.decode word = i at hop hfits h ⊢
    cases hfits with
    | float op opcode fa fb function fc =>
      have hchecks := Instruction.checksLong_iff hop
      by_cases hq : op = .quadToLong
      · subst hq
        rcases FloatOp.of_quadToLong_trapped h with ⟨hkind, hm⟩ | ⟨hkind, hc, hm⟩
        · rw [hm, if_neg fun hc => hkind hc.1]
        · rw [hm, if_pos ⟨hkind, hchecks.2 ⟨rfl, hc⟩⟩]
      · have hne : Operation.float op ≠ .float .quadToLong := fun he => hq (by cases he; rfl)
        rw [(Operation.run_atomic hne _).eq h, if_neg fun hc => hne (hchecks.1 hc.2).1]
    | _ =>
      -- Only floating words can check for overflow.
      have hm := (Operation.run_atomic (by simp) _).eq h
      simp [hm, Instruction.checksLong]

/-- **Traps are precise and atomic.**  A trap names the address of its instruction and leaves the
memory and the processor as they were, whatever the instruction; the one exception is the integer
overflow of a checked conversion to a longword, which sets two bits of the floating control
register and nothing else.  In particular a failed load, store, load-locked or store-conditional
changes nothing. -/
theorem execute_trapped_precise (h : execute word pc m = .trapped m' trap) :
    trap.pc = pc ∧ m'.mem = m.mem ∧
      (trap.kind = .integerOverflow ∧ (Instruction.decode word).checksLong = true →
        m'.cpu = { m.cpu with
          fpcr := m.cpu.fpcr ||| (Fpcr.integerOverflow ||| Fpcr.sum) }) ∧
      (¬ (trap.kind = .integerOverflow ∧ (Instruction.decode word).checksLong = true) →
        m'.cpu = m.cpu) ∧
      ((Instruction.decode word).opcode.format = .memory → m' = m) := by
  have hm := trapped_machine h
  have hkeeps := execute_keeps word pc m
  rw [h] at hkeeps
  refine ⟨hkeeps.2, ?_, fun hc => ?_, fun hc => ?_, fun hformat => ?_⟩
  · rw [hm]
    split <;> rfl
  · rw [hm, if_pos hc]
    rfl
  · rw [hm, if_neg hc]
  · have hshape := Instruction.shape_decode word
    rw [hformat] at hshape
    rw [hm, if_neg]
    rintro ⟨-, hc⟩
    generalize Instruction.decode word = i at hshape hc
    cases i <;> simp [Instruction.shape, Instruction.checksLong] at hshape hc

/-- A machine with a reservation and a quadword that is too large for a longword. -/
def reserving : Machine :=
  ⟨(((Processor.startingAt 0x1000).setLock 0x2000).writeInt 2 0x2000).writeFp 1 0x100000000,
    .zeroed 0x1000 16⟩

/-- The hypothesis can be met: by a checked conversion, and by a store-conditional whose granule is
reserved and not mapped. -/
theorem execute_trapped_precise_reserving :
    (∃ m' trap, execute 0x5FE12602 0x1000 reserving = .trapped m' trap ∧
      m'.cpu = { reserving.cpu with
        fpcr := reserving.cpu.fpcr ||| (Fpcr.integerOverflow ||| Fpcr.sum) }) ∧
    (∃ m' trap, execute 0xBC220000 0x1000 reserving = .trapped m' trap ∧
      trap.pc = 0x1000 ∧ m' = reserving) := by
  have hconversion : Operation.ofInstruction? (.decode 0x5FE12602) = some (.float .quadToLong) :=
    Operation.ofInstruction?_of_registered ⟨.fltL, some Operation.quadToLongSlot⟩ rfl (by decide)
  have hconditional : Operation.ofInstruction? (.decode 0xBC220000) =
      some (.memory (.storeConditional .quad)) :=
    Operation.ofInstruction?_of_registered ⟨.stqC, none⟩ rfl (by decide)
  have hconvert : execute 0x5FE12602 0x1000 reserving =
      .trapped reserving.noteOverflow ⟨.integerOverflow, 0x1000, none⟩ :=
    (execute_of_operation hconversion ..).trans (by decide)
  have hstore : execute 0xBC220000 0x1000 reserving =
      .trapped reserving ⟨.accessViolation, 0x1000, some 0x2000⟩ :=
    (execute_of_operation hconditional ..).trans (by decide)
  refine ⟨⟨_, _, hconvert, ?_⟩, ⟨_, _, hstore, ?_, ?_⟩⟩
  · exact (execute_trapped_precise hconvert).2.2.1 ⟨rfl, by decide⟩
  · exact (execute_trapped_precise hstore).1
  · exact (execute_trapped_precise hstore).2.2.2.2 (by decide)

end Words

end AlphaMachine
