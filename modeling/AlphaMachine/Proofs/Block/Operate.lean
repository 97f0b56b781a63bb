import AlphaMachine.Proofs.Block.Effect
import AlphaMachine.Proofs.Host.Arithmetic

/-!
# Compiled integer operations

The code of an integer operate instruction loads its operands into `rax` and `rcx`, computes the
result in `rax` and stores it.  The middle part is described by `Block.Computes`, the frame around
it is the same for all operations (`Native.compute`), and `OperateOp.native_of_lower?` says that
whatever code an operation has does what the operation does.
-/

namespace AlphaMachine

namespace Block

open Host

variable {link : Linkage} {s s' : Host.State} {pc : UInt64} {ra rc : Reg} {rb : Operand}
  {rest : Code}

/-! ### Operands and results -/

/-- The state after both operands were loaded. -/
def withOperands (s : Host.State) (ra : Reg) (rb : Operand) : Host.State :=
  loadedOperand (loaded s .rax ra (s.guest.cpu.readInt ra)) .rcx rb

theorem exec_loadOperands (h : s.gpr .rbx = link.state) (ra : Reg) (rb : Operand) :
    exec link (loadOperands ra rb ++ rest) s = exec link rest (withOperands s ra rb) := by
  rw [loadOperands, List.append_assoc, exec_loadInt h, exec_loadOperand (by exact h)]
  rfl

theorem same_loaded (s : Host.State) {dst : Gpr} (hdst : dst = .rax ∨ dst = .rcx ∨ dst = .rdx ∨
    dst = .rsi) (r : Reg) (value : UInt64) : Same s (loaded s dst r value) := by
  rcases hdst with rfl | rfl | rfl | rfl <;> exact ⟨⟨rfl, rfl, rfl, rfl⟩, rfl, rfl⟩

theorem same_loadedOperand (s : Host.State) {dst : Gpr} (hdst : dst = .rax ∨ dst = .rcx)
    (rb : Operand) : Same s (loadedOperand s dst rb) := by
  rcases hdst with rfl | rfl <;> cases rb <;> exact ⟨⟨rfl, rfl, rfl, rfl⟩, rfl, rfl⟩

theorem same_withOperands (s : Host.State) (ra : Reg) (rb : Operand) :
    Same s (withOperands s ra rb) :=
  (same_loaded s (.inl rfl) ra _).trans (same_loadedOperand _ (.inr rfl) rb)

@[simp] theorem rax_withOperands :
    (withOperands s ra rb).gpr .rax = s.guest.cpu.readInt ra := by
  simp [withOperands]

@[simp] theorem rcx_withOperands :
    (withOperands s ra rb).gpr .rcx = s.guest.cpu.readOperand rb := by
  simp [withOperands]

@[simp] theorem unbound_loadOperands (label : Label) : Unbound label (loadOperands ra rb) := by
  simp [loadOperands]

@[simp] theorem unbound_storeResult (label : Label) (width : Width) :
    Unbound label (storeResult rc width) := by
  cases width <;> simp [storeResult]

/-- Code behind the loads of both operands. -/
theorem Native.loadOperands {code : Code} {o : Outcome} (hs : Ready link s)
    (h : Native link code pc false (withOperands s ra rb) o) :
    Native link (Block.loadOperands ra rb ++ code) pc false s o :=
  .of_same (same_withOperands s ra rb) (exec_loadOperands hs.state ra rb) h

/-- The code ends with the store of a result. -/
theorem Native.storeResult (hs : Ready link s) (rc : Reg) (width : Width) {value : UInt64}
    (hrax : s.gpr .rax = value) :
    Native link (Block.storeResult rc width) pc false s
      (s.guest.returnInt rc (width.extend value)) := by
  cases width with
  | quad => exact .storeInt hs rc .rax hrax
  | long =>
    have hsame : Same s (s.set .rax (signExtendLong value)) := ⟨⟨rfl, rfl, rfl, rfl⟩, rfl, rfl⟩
    have hstep : steps link [.movsx .dword .rax .rax] s =
        some (s.set .rax (signExtendLong value)) := by
      rw [← hrax]
      rfl
    exact .of_same hsame (exec_of_steps hstep) (.storeInt (hs.same hsame) rc .rax rfl)

/-! ### Results computed in a row -/

/-- The instructions compute a value in `rax` from operands in `rax` and `rcx`. -/
def Computes (link : Linkage) (l : List Instr) (a b value : UInt64) : Prop :=
  ∀ s : Host.State, s.gpr .rax = a → s.gpr .rcx = b →
    ∃ s', steps link l s = some s' ∧ s'.gpr .rax = value ∧ Same s s'

/-- **The frame of an operation.**  Where the instructions compute a value, the code stores it. -/
theorem Native.compute {l : List Instr} {value : UInt64} (hs : Ready link s)
    (h : Computes link l (s.guest.cpu.readInt ra) (s.guest.cpu.readOperand rb) value)
    (rc : Reg) (width : Width) :
    Native link (Block.loadOperands ra rb ++ instrs l ++ Block.storeResult rc width) pc false s
      (s.guest.returnInt rc (width.extend value)) := by
  have hsame := same_withOperands s ra rb
  obtain ⟨s', hsteps, hrax, hsame'⟩ := h (withOperands s ra rb) rax_withOperands rcx_withOperands
  have hall := hsame.trans hsame'
  rw [List.append_assoc, ← hall.guest]
  refine .loadOperands hs (.of_same hsame' (exec_of_steps hsteps) ?_)
  exact .storeResult (hs.same hall) rc width hrax

/-- An instruction in front that only changes operands. -/
theorem Computes.cons {i : Instr} {l : List Instr} {a b a' b' value : UInt64}
    (hi : ∀ s : Host.State, s.gpr .rax = a → s.gpr .rcx = b →
      ∃ s', i.step link.environment s = some s' ∧ s'.gpr .rax = a' ∧ s'.gpr .rcx = b' ∧ Same s s')
    (h : Computes link l a' b' value) : Computes link (i :: l) a b value := by
  intro s ha hb
  obtain ⟨s₁, hstep, ha', hb', hsame⟩ := hi s ha hb
  obtain ⟨s₂, hsteps, hvalue, hsame'⟩ := h s₁ ha' hb'
  refine ⟨s₂, ?_, hvalue, hsame.trans hsame'⟩
  rw [steps_cons, hstep, Option.bind_some, hsteps]

theorem computes_alu {op : AluOp} (hop : op.writes = true) (size : OpSize) (a b : UInt64) :
    Computes link [.alu op size .rax .rcx] a b (op.sized size a b) := by
  intro s ha hb
  refine ⟨_, rfl, ?_, ?_⟩
  · rw [hop, ← ha, ← hb]
    rfl
  · rw [hop]
    exact ⟨⟨rfl, rfl, rfl, rfl⟩, rfl, rfl⟩

theorem computes_arith (op : AddSub) (scale : Nat) (width : Width) (a b : UInt64) :
    Computes link ((if scale = 0 then [] else [Instr.shiftImm .shl .qword .rax scale.toUInt8]) ++
        [Instr.alu op.aluOp width.opSize .rax .rcx]) a b
      (op.aluOp.sized width.opSize (a <<< scale.toUInt64) b) := by
  have hwrites : op.aluOp.writes = true := by cases op <;> rfl
  by_cases hscale : scale = 0
  · have hzero : a <<< (0 : Nat).toUInt64 = a := UInt64.shiftLeft_zero
    subst hscale
    rw [hzero]
    exact computes_alu hwrites _ a b
  · rw [if_neg hscale]
    refine .cons (fun s ha hb => ⟨_, rfl, ?_, hb, ⟨⟨rfl, rfl, rfl, rfl⟩, rfl, rfl⟩⟩)
      (computes_alu hwrites _ _ b)
    rw [← ShiftOp.sized_scale, ← ha]
    rfl

theorem computes_compare (relation : Comparison) (a b : UInt64) :
    Computes link
      [.alu .cmp .qword .rax .rcx, .setcc relation.cond .rax, .movzx .byte .rax .rax] a b
      (Integer.compare relation a b).toUInt64 := by
  intro s ha hb
  have hholds := relation.holds?_cond a b s.flags
  have hbyte (holds : Bool) :
      (a &&& 0xFFFFFFFFFFFFFF00 ||| holds.toUInt64).toUInt8.toUInt64 = holds.toUInt64 := by
    have hlow : (a &&& 0xFFFFFFFFFFFFFF00).toUInt8 = 0 := by
      rw [UInt64.toUInt8_and]
      exact UInt8.and_zero
    rw [UInt64.toUInt8_or, hlow, UInt8.zero_or]
    cases holds <;> rfl
  simp only [steps_cons, steps_nil, Instr.step, AluOp.writes, ha, hb, hholds, Option.map_some,
    Option.bind_some]
  refine ⟨_, rfl, ?_, ⟨⟨rfl, rfl, rfl, rfl⟩, rfl, rfl⟩⟩
  simp only [Host.State.gpr_set, if_true, Bool.false_eq_true, if_false, ha]
  exact hbyte _

theorem computes_compareBytes (a b : UInt64) :
    Computes link
      [.movqToXmm 0 .rax, .movqToXmm 1 .rcx, .pmaxub 1 0, .pcmpeqb 1 0, .pmovmskb .rax 1,
       .aluImm .and .dword .rax 0xFF] a b (Integer.compareBytes a b) := by
  intro s ha hb
  refine ⟨_, rfl, ?_, ⟨⟨rfl, rfl, rfl, rfl⟩, rfl, rfl⟩⟩
  rw [← ha, ← hb, ← topBits_eq_compareBytes]
  exact and_byte _ _

theorem computes_logic (op : Logic) (complement : Bool) (a b : UInt64) :
    Computes link ((if complement then [Instr.not .qword .rcx] else []) ++
        [Instr.alu op.aluOp .qword .rax .rcx]) a b (Integer.logic op complement a b) := by
  have hwrites : op.aluOp.writes = true := by cases op <;> rfl
  cases complement with
  | false =>
    rw [← AluOp.sized_logic]
    exact computes_alu hwrites .qword a b
  | true =>
    have hlogic : Integer.logic op true a b = Integer.logic op false a (~~~b) := rfl
    rw [hlogic, ← AluOp.sized_logic]
    refine .cons (fun s ha hb => ⟨_, rfl, ha, ?_, ⟨⟨rfl, rfl, rfl, rfl⟩, rfl, rfl⟩⟩)
      (computes_alu hwrites .qword a _)
    rw [← AluOp.sized_not, ← hb]
    rfl

theorem computes_shift (direction : Shift) (a b : UInt64) :
    Computes link [.shiftCl direction.shiftOp .qword .rax] a b (Integer.shift direction a b) := by
  intro s ha hb
  refine ⟨_, rfl, ?_, ⟨⟨rfl, rfl, rfl, rfl⟩, rfl, rfl⟩⟩
  rw [← ha, ← hb, ← ShiftOp.sized_shiftCl]
  rfl

theorem computes_multiply (width : Width) (a b : UInt64) :
    Computes link [.imul width.opSize .rax .rcx] a b (width.opSize.product a b) := by
  intro s ha hb
  refine ⟨_, rfl, ?_, ⟨⟨rfl, rfl, rfl, rfl⟩, rfl, rfl⟩⟩
  rw [← ha, ← hb]
  rfl

theorem computes_multiplyHigh (a b : UInt64) :
    Computes link [.mulWide .rcx, .mov .qword .rax .rdx] a b (Integer.multiplyHigh a b) := by
  intro s ha hb
  refine ⟨_, rfl, ?_, ⟨⟨rfl, rfl, rfl, rfl⟩, rfl, rfl⟩⟩
  rw [← ha, ← hb]
  rfl

/-! ### Checked results -/

/-- The arguments of the overflow helper. -/
theorem steps_overflowArguments (link : Linkage) (op : AddSub) (mode : UInt64) {a b : UInt64}
    (ha : s.gpr .rax = a) (hb : s.gpr .rcx = b) :
    ∃ s', steps link [.mov .qword .rdi .rax, .alu op.aluOp .qword .rdi .rcx, .mov .qword .rsi .rax,
        .mov .qword .rdx .rcx, .movImm .rcx mode] s = some s' ∧
      s'.gpr .rdi = op.apply a b ∧ s'.gpr .rsi = a ∧ s'.gpr .rdx = b ∧ s'.gpr .rcx = mode ∧
      Same s s' := by
  subst ha hb
  cases op with
  | add => exact ⟨_, rfl, rfl, rfl, rfl, rfl, ⟨⟨rfl, rfl, rfl, rfl⟩, rfl, rfl⟩⟩
  | sub => exact ⟨_, rfl, rfl, rfl, rfl, rfl, ⟨⟨rfl, rfl, rfl, rfl⟩, rfl, rfl⟩⟩

theorem helpOverflows_overflowMode (op : AddSub) (width : Width) (result a b : UInt64) :
    helpOverflows result a b (overflowMode op width) =
      (width.codes result a b (op = .sub)).overflow.toUInt64 := by
  cases op <;> cases width <;> rfl

/-- Code behind a call of the overflow helper for the operands in `rax` and `rcx`. -/
theorem Native.overflows (op : AddSub) (width : Width) {code : Code} {o : Outcome} {a b : UInt64}
    (ha : s.gpr .rax = a) (hb : s.gpr .rcx = b)
    (h : ∀ s', Same s s' →
      s'.gpr .rax = (width.codes (op.apply a b) a b (op = .sub)).overflow.toUInt64 →
      Native link code pc false s' o) :
    Native link (instrs [.mov .qword .rdi .rax, .alu op.aluOp .qword .rdi .rcx,
        .mov .qword .rsi .rax, .mov .qword .rdx .rcx, .movImm .rcx (overflowMode op width)] ++
          (call .overflows ++ code)) pc false s o := by
  obtain ⟨s₁, hsteps, hrdi, hrsi, hrdx, hrcx, hsame⟩ :=
    steps_overflowArguments link op (overflowMode op width) ha hb
  let s₂ := link.returned (s₁.set .rax (link.address .overflows))
    (width.codes (op.apply a b) a b (op = .sub)).overflow.toUInt64 s₁.guest
  have hcall : link.callHelper (s₁.set .rax (link.address .overflows)) .overflows = some s₂ := by
    unfold s₂
    rw [← helpOverflows_overflowMode, ← hrdi, ← hrsi, ← hrdx, ← hrcx]
    rfl
  have hsame₂ : Same s s₂ := hsame.trans ⟨⟨rfl, rfl, rfl, liveStack_returned ..⟩, rfl, rfl⟩
  refine .of_same hsame₂ ?_ (h s₂ hsame₂ rfl)
  rw [exec_of_steps hsteps, exec_call, hcall, Option.bind_some]

/-- Code behind a conditional jump to the exit of a trap. -/
theorem Native.trapIf {cond : Cond} {kind : TrapKind} {flag : Bool} {code : Code} {o : Outcome}
    (hcond : cond.holds? s.flags = some flag) (hcode : Unbound (.trap pc (some kind)) code)
    (h : Native link code pc false s o) :
    Native link (.jumpIf cond (.trap pc (some kind)) :: code) pc false s
      (if flag then s.guest.raise kind pc else o) := by
  have hexec : exec link (.jumpIf cond (.trap pc (some kind)) :: code) s = _ :=
    exec_jumpIf hcond _
  cases flag with
  | true => exact .raise (Same.refl s) (hexec.trans (execFrom_of_unbound hcode s))
  | false => exact .of_same (Same.refl s) hexec h

/-- Code behind a jump to the exit of a trap if `rax` is set. -/
theorem Native.trapIfSet {kind : TrapKind} {flag : Bool} {code : Code} {o : Outcome}
    (hrax : s.gpr .rax = flag.toUInt64) (hcode : Unbound (.trap pc (some kind)) code)
    (h : ∀ s', Same s s' → Native link code pc false s' o) :
    Native link ([Line.instr (.alu .test .qword .rax .rax),
      .jumpIf .ne (Label.trap pc (some kind))] ++ code) pc false s
      (if flag then s.guest.raise kind pc else o) := by
  let s' := { s with flags := AluOp.sizedFlags .test .qword (s.gpr .rax) (s.gpr .rax) s.flags }
  have hsame : Same s s' := ⟨⟨rfl, rfl, rfl, rfl⟩, rfl, rfl⟩
  have hcond : Cond.ne.holds? s'.flags = some flag := by
    unfold s'
    rw [sizedFlags_test_self, hrax]
    cases flag <;> rfl
  refine .of_same hsame ?_ (.trapIf hcond hcode (h s' hsame))
  rfl

end Block

open Block Host

variable {link : Linkage} {s : Host.State} {pc : UInt64} {ra rc : Reg} {rb : Operand}
  {code : Code}

namespace OperateOp

/-! ### Operations with code of their own shape -/

/-- Checked sums and differences: the helper decides about the trap before the destination is
written, and the operands that the call clobbered are loaded again. -/
theorem native_arithChecked (op : AddSub) (width : Width)
    (h : (arithChecked op width).lower? pc ra rb rc = some code) (hs : Ready link s) :
    Native link code pc false s ((arithChecked op width).run pc ra rb rc s.guest) := by
  cases h
  have hwrites : op.aluOp.writes = true := by cases op <;> rfl
  have hs₁ := same_withOperands s ra rb
  simp only [List.append_assoc]
  refine .loadOperands hs (.overflows op width rax_withOperands rcx_withOperands ?_)
  intro s₂ hs₂ hrax
  have hguest := (hs₁.trans hs₂).guest
  have hrun : (arithChecked op width).run pc ra rb rc s.guest = _ :=
    apply_ite (s.guest.returnChecked pc rc) _ _ _
  rw [hrun, ← hguest]
  rw [← hguest] at hrax
  refine .trapIfSet hrax (by simp) ?_
  intro s₃ hs₃
  -- behind the check, the code is that of the unchecked operation
  rw [← List.append_assoc, ← hs₃.guest, ← width.extend_sized]
  exact .compute ((hs.same (hs₁.trans hs₂)).same hs₃) (computes_alu hwrites _ _ _) rc width

/-- Checked products: the flag of the multiplication itself decides. -/
theorem native_multiplyChecked (width : Width)
    (h : (multiplyChecked width).lower? pc ra rb rc = some code) (hs : Ready link s) :
    Native link code pc false s ((multiplyChecked width).run pc ra rb rc s.guest) := by
  cases h
  have hs₁ := same_withOperands s ra rb
  let a := s.guest.cpu.readInt ra
  let b := s.guest.cpu.readOperand rb
  let overflow := some (width.opSize.productOverflows a b)
  let s₂ := { (withOperands s ra rb).set .rax (width.opSize.product a b) with
    flags := ⟨none, none, overflow, overflow⟩ }
  have hs₂ : Same (withOperands s ra rb) s₂ := ⟨⟨rfl, rfl, rfl, rfl⟩, rfl, rfl⟩
  have hguest := (hs₁.trans hs₂).guest
  have hrun : (multiplyChecked width).run pc ra rb rc s.guest =
      if width.opSize.productOverflows a b then s.guest.raise .integerOverflow pc
      else s.guest.returnInt rc (width.extend (width.opSize.product a b)) := by
    simp only [run, Integer.multiplyChecked_eq]
    exact apply_ite (s.guest.returnChecked pc rc) _ _ _
  have hexec : exec link ([Line.instr (.imul width.opSize .rax .rcx),
      .jumpIf .o (Label.trap pc (some .integerOverflow))] ++ storeResult rc width)
        (withOperands s ra rb) =
      exec link (.jumpIf .o (.trap pc (some .integerOverflow)) :: storeResult rc width) s₂ := by
    simp only [List.cons_append, List.nil_append, exec_instr, Instr.step, rax_withOperands,
      rcx_withOperands, Option.bind_some]
    rfl
  have hcond : Cond.o.holds? s₂.flags = overflow := rfl
  rw [List.append_assoc, hrun, ← hguest]
  refine .loadOperands hs (.of_same hs₂ hexec (.trapIf hcond (unbound_storeResult _ width) ?_))
  exact .storeResult (hs.same (hs₁.trans hs₂)) rc width rfl

theorem writeInt_readInt (m : Machine) (r : Reg) : m.writeInt r (m.cpu.readInt r) = m := by
  unfold Machine.writeInt Processor.writeInt Processor.readInt RegisterFile.write RegisterFile.read
  split
  · rfl
  · rw [RegisterFile.setSlot, show m.cpu.int.get r = m.cpu.int[r.val] from rfl,
      Vector.set_getElem_self]

theorem steps_moveIf (link : Linkage) (condition : Condition) (s : Host.State) :
    ∃ s', steps link [condition.test .rax, .cmov condition.cond .rdx .rcx] s = some s' ∧
      s'.gpr .rdx = (if condition.holds (s.gpr .rax) then s.gpr .rcx else s.gpr .rdx) ∧
      Same s s' := by
  rw [steps_cons, Condition.step_test, Option.bind_some, steps_cons]
  simp only [steps_nil, Instr.step, condition.holds?_cond, Option.map_some, Option.bind_some]
  refine ⟨_, rfl, ?_, ?_⟩
  · split <;> rfl
  · split <;> exact ⟨⟨rfl, rfl, rfl, rfl⟩, rfl, rfl⟩

/-- Conditional moves: the old value of the destination is replaced or stored back. -/
theorem native_moveIf (condition : Condition)
    (h : (moveIf condition).lower? pc ra rb rc = some code) (hs : Ready link s) :
    Native link code pc false s ((moveIf condition).run pc ra rb rc s.guest) := by
  simp only [lower?] at h
  split at h
  case isTrue hrc =>
    cases h
    have hrun : (moveIf condition).run pc ra rb rc s.guest = s.guest.skip := by
      simp [run, hrc, Machine.returnInt, Machine.writeInt, Processor.writeInt, RegisterFile.write,
        Machine.skip]
    rw [hrun]
    exact Completes.next exec_nil (Kept.refl s) rfl rfl
  case isFalse hrc =>
    cases h
    let s₁ := loadedOperand (loaded (loaded s .rax ra (s.guest.cpu.readInt ra)) .rdx rc
      (s.guest.cpu.readInt rc)) .rcx rb
    have hs₁ : Same s s₁ :=
      ((same_loaded s (by simp) ra _).trans (same_loaded _ (by simp) rc _)).trans
        (same_loadedOperand _ (by simp) rb)
    obtain ⟨s₂, hsteps, hrdx, hs₂⟩ := steps_moveIf link condition s₁
    have hall := hs₁.trans hs₂
    have hvalue : s₂.gpr .rdx = if condition.holds (s.guest.cpu.readInt ra)
        then s.guest.cpu.readOperand rb else s.guest.cpu.readInt rc := by
      simpa [s₁] using hrdx
    have hrun : (moveIf condition).run pc ra rb rc s.guest =
        s.guest.returnInt rc (s₂.gpr .rdx) := by
      rw [hvalue]
      simp only [run]
      split
      · rfl
      · simp only [Machine.returnInt, writeInt_readInt, Machine.skip]
    rw [hrun, ← hall.guest]
    simp only [List.append_assoc]
    refine .of_same hall ?_ (.storeInt (hs.same hall) rc .rdx rfl)
    rw [exec_loadInt hs.state, exec_loadInt (by exact hs.state),
      exec_loadOperand (by exact hs.state)]
    exact exec_of_steps hsteps

/-- Operations on the second operand alone, which is loaded into some register. -/
theorem native_unary {dst : Gpr} (hdst : dst = .rax ∨ dst = .rcx) {i : Instr} {value : UInt64}
    (hi : ∀ s' : Host.State, s'.gpr dst = s.guest.cpu.readOperand rb →
      ∃ s'', i.step link.environment s' = some s'' ∧ s''.gpr .rax = value ∧ Same s' s'')
    (hs : Ready link s) :
    Native link (loadOperand dst rb ++ instrs [i] ++ storeInt rc .rax) pc false s
      (s.guest.returnInt rc value) := by
  have hs₁ := same_loadedOperand s hdst rb
  obtain ⟨s₂, hstep, hrax, hs₂⟩ := hi (loadedOperand s dst rb) (by simp)
  have hall := hs₁.trans hs₂
  rw [List.append_assoc, ← hall.guest]
  refine .of_same hall ?_ (.storeInt (hs.same hall) rc .rax hrax)
  rw [exec_loadOperand hs.state]
  refine exec_of_steps ?_
  rw [steps_cons, hstep]
  rfl

/-! ### All operations -/

/-- **Compiled integer operations are correct.** -/
theorem native_of_lower? (op : OperateOp) (h : op.lower? pc ra rb rc = some code)
    (hs : Ready link s) : Native link code pc false s (op.run pc ra rb rc s.guest) := by
  cases op with
  | arith op scale width =>
    cases h
    simp only [run, Integer.arith]
    rw [← width.extend_sized]
    exact .compute hs (computes_arith op scale width _ _) rc width
  | arithChecked op width => exact native_arithChecked op width h hs
  | compare relation =>
    cases h
    exact .compute hs (computes_compare relation _ _) rc .quad
  | compareBytes =>
    cases h
    exact .compute hs (computes_compareBytes _ _) rc .quad
  | logic op complement =>
    cases h
    exact .compute hs (computes_logic op complement _ _) rc .quad
  | moveIf condition => exact native_moveIf condition h hs
  | featureMask =>
    cases h
    refine native_unary (.inl rfl) (fun s' hs' => ?_) hs
    refine ⟨_, rfl, ?_, ⟨⟨rfl, rfl, rfl, rfl⟩, rfl, rfl⟩⟩
    rw [← hs']
    rfl
  | implementationVersion =>
    cases h
    have hsame : Same s (s.set .rax Integer.version) := ⟨⟨rfl, rfl, rfl, rfl⟩, rfl, rfl⟩
    exact .of_same hsame (exec_of_steps rfl) (.storeInt (hs.same hsame) rc .rax rfl)
  | shift direction =>
    cases h
    exact .compute hs (computes_shift direction _ _) rc .quad
  | multiply width =>
    cases h
    simp only [run]
    rw [← width.extend_product]
    exact .compute hs (computes_multiply width _ _) rc width
  | multiplyHigh =>
    cases h
    exact .compute hs (computes_multiplyHigh _ _) rc .quad
  | multiplyChecked width => exact native_multiplyChecked width h hs
  | signExtendByte | signExtendWord =>
    cases h
    refine native_unary (.inr rfl) (fun s' hs' => ?_) hs
    refine ⟨_, rfl, ?_, ⟨⟨rfl, rfl, rfl, rfl⟩, rfl, rfl⟩⟩
    rw [← hs']
    rfl
  | moveFromFloat precision =>
    cases precision with
    | single => cases h
    | double =>
      cases h
      have hunbound : Unbound (.trap pc (some .floatDisabled))
          (loadFp .rax ra ++ storeInt rc .rax) := by simp
      rw [List.append_assoc]
      refine .checkFp hs hunbound fun s₁ hs₁ => ?_
      have hs₂ := same_loaded s₁ (.inl rfl) ra (s₁.guest.cpu.readFp ra)
      refine .of_same hs₂ (exec_loadFp (hs.same hs₁).state .rax ra) ?_
      rw [← (hs₁.trans hs₂).guest]
      exact .storeInt ((hs.same hs₁).same hs₂) rc .rax rfl
  | zap | zapNot | byteField | countOnes | countLeadingZeros | countTrailingZeros => cases h

end OperateOp

end AlphaMachine
