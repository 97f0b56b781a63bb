import AlphaMachine.Proofs.Block.Fragments
import AlphaMachine.Proofs.Block.Translation
import AlphaMachine.Proofs.Host.Running

/-!
# What the code of an instruction is made of

Whatever instruction it is, its host code keeps to a few forms (`Block.Tame`): instructions that
compute in scratch registers and reach memory only through `rbx`, in the processor state
(`Block.plain`), calls through `rax`, and jumps out of it.  So it cannot get stuck, and it leaves
the stack and all registers alone that a callee has to keep.

Which of the forms an instruction needs is only looked at here (`Block.tame_lowerWord`).
-/

namespace AlphaMachine

namespace Block

open Host

/-! ### Plain instructions -/

/-- The registers that code of an instruction may set. -/
def scratch : List Gpr := [.rax, .rcx, .rdx, .rsi, .rdi]

/-- The quadword of the processor state is a guest register. -/
def isRegister : Field → Bool
  | .int _ | .fp _ => true
  | .pendingTrap | .pendingTrapAddr => false

/-- All registers that the instruction sets are scratch registers. -/
def setsScratch (i : Instr) : Bool := i.written.all (· ∈ scratch)

/-- The registers that no code of a block has a use for. -/
def untouched : List Gpr := [.rbp, .r13, .r14, .r15]

/-- The registers that a line sets. -/
def writes : Line Label Helper → List Gpr
  | .instr i => i.written
  | .address dst _ => [dst]
  | .jump _ | .jumpIf .. | .bind _ => []

/-- Lines that any part of the code of an instruction may have. -/
structure Usual (line : Line Label Helper) : Prop where
  /-- It spares the registers without a use. -/
  spares : ∀ r ∈ writes line, r ∉ untouched
  /-- It is no return. -/
  noReturn : line ≠ .instr .ret
  /-- If it is the position of a label, then of that of a branch. -/
  binds : ∀ label, line = .bind label → label = .taken

/-- The instruction has a result, as long as `rbx` holds the address of the processor state: memory
is only reached there, to read a field or to set a guest register. -/
def hasResult : Instr → Bool
  | .callReg _ | .ret | .push _ | .setcc .. | .cmov .. | .storeImm .. => false
  | .load _ base disp | .cmpMem base disp _ =>
    base = .rbx && (Field.at? (immediate disp).toNat).isSome
  | .store base disp _ => base = .rbx && (Field.at? (immediate disp).toNat).any isRegister
  | .cmpMemByte base disp _ => base = .rbx && (immediate disp).toNat = Layout.fpEnabled
  | _ => true

/-- The instruction computes in scratch registers. -/
def plain (i : Instr) : Bool := setsScratch i && hasResult i

/-- The instruction is a compare, after which every flag is defined. -/
def isTest : Instr → Bool
  | .alu .cmp .. | .alu .test .. | .aluImm .cmp .. | .aluImm .test .. => true
  | _ => false

/-- The instruction depends on flags. -/
def onFlags : Instr → Bool
  | .setcc cond _ | .cmov cond _ _ => cond ≠ .p && cond ≠ .np
  | _ => false

/-- What code of an instruction leaves alone. -/
structure Calm (s s' : Host.State) : Prop where
  /-- All but the scratch registers. -/
  gpr : ∀ r, r ∉ scratch → s'.gpr r = s.gpr r
  /-- The stack. -/
  stack : s'.stack = s.stack
  /-- The pending slot. -/
  pendingTrap : s'.guest.cpu.pendingTrap = s.guest.cpu.pendingTrap

section Instructions

variable {i j : Instr} {base : UInt64} {s s' : Host.State}

/-- Memory is reached at the displacement from `rbx`. -/
theorem offset_alone (hbase : s.gpr .rbx = base) (disp : Int32) :
    s.offset (alone base) .rbx disp = (immediate disp).toNat := by
  unfold Host.State.offset
  rw [hbase, UInt64.add_comm]
  exact congrArg UInt64.toNat (UInt64.add_sub_cancel _ base)

/-- Instructions without a result apart, nothing but guest registers is written to memory. -/
theorem exists_step_of_hasResult (h : hasResult i = true) (hbase : s.gpr .rbx = base) :
    ∃ s', i.step (alone base) s = some s' ∧ s'.stack = s.stack ∧
      s'.guest.cpu.pendingTrap = s.guest.cpu.pendingTrap := by
  cases i with
  | callReg | ret | push | setcc | cmov | storeImm => cases h
  | load dst b disp =>
    simp only [hasResult, Bool.and_eq_true, decide_eq_true_eq, Option.isSome_iff_exists] at h
    obtain ⟨rfl, f, hf⟩ := h
    simp only [Instr.step, Host.State.readQuad, offset_alone hbase, hf]
    exact ⟨_, rfl, rfl, rfl⟩
  | cmpMem b disp imm =>
    simp only [hasResult, Bool.and_eq_true, decide_eq_true_eq, Option.isSome_iff_exists] at h
    obtain ⟨rfl, f, hf⟩ := h
    simp only [Instr.step, Host.State.readQuad, offset_alone hbase, hf]
    exact ⟨_, rfl, rfl, rfl⟩
  | store b disp src =>
    simp only [hasResult, Bool.and_eq_true, decide_eq_true_eq, Option.any_eq_true] at h
    obtain ⟨rfl, f, hf, hregister⟩ := h
    simp only [Instr.step, Host.State.writeQuad, offset_alone hbase, hf]
    refine ⟨_, rfl, rfl, ?_⟩
    cases f with
    | int r | fp r => rfl
    | pendingTrap | pendingTrapAddr => cases hregister
  | cmpMemByte b disp imm =>
    simp only [hasResult, Bool.and_eq_true, decide_eq_true_eq] at h
    obtain ⟨rfl, hoffset⟩ := h
    simp only [Instr.step, Host.State.readByte, offset_alone hbase, hoffset]
    exact ⟨_, rfl, rfl, rfl⟩
  | alu op size dst src | aluImm op size dst imm =>
    refine ⟨_, rfl, ?_, ?_⟩ <;> dsimp only <;> split <;> rfl
  | _ => exact ⟨_, rfl, rfl, rfl⟩

/-- Flags that any condition can be read from. -/
structure Defined (f : Flags) : Prop where
  zero : f.zero.isSome
  sign : f.sign.isSome
  overflow : f.overflow.isSome
  carry : f.carry.isSome

theorem Defined.exists_holds? {f : Flags} (h : Defined f) {cond : Cond} (hp : cond ≠ .p)
    (hnp : cond ≠ .np) : ∃ holds, cond.holds? f = some holds := by
  obtain ⟨zero, hzero⟩ := Option.isSome_iff_exists.1 h.zero
  obtain ⟨sign, hsign⟩ := Option.isSome_iff_exists.1 h.sign
  obtain ⟨overflow, hoverflow⟩ := Option.isSome_iff_exists.1 h.overflow
  obtain ⟨carry, hcarry⟩ := Option.isSome_iff_exists.1 h.carry
  cases cond with
  | p => exact absurd rfl hp
  | np => exact absurd rfl hnp
  | _ =>
    simp only [Cond.holds?, Flags.less?, hzero, hsign, hoverflow, hcarry]
    exact ⟨_, rfl⟩

theorem defined_sizedFlags {op : AluOp} (hop : op ≠ .mov) (size : OpSize) (a b : UInt64)
    (old : Flags) : Defined (op.sizedFlags size a b old) := by
  cases op with
  | mov => exact absurd rfl hop
  | _ => cases size <;> exact ⟨rfl, rfl, rfl, rfl⟩

/-- After a compare, conditions can be read. -/
theorem defined_of_isTest (h : isTest i = true) (hstep : i.step (alone base) s = some s') :
    Defined s'.flags := by
  cases i with
  | alu op size dst src | aluImm op size dst imm =>
    cases hstep
    refine defined_sizedFlags ?_ ..
    rintro rfl
    cases h
  | _ => cases h

theorem exists_step_of_onFlags (h : onFlags j = true) (hflags : Defined s.flags) :
    ∃ s', j.step (alone base) s = some s' ∧ s'.stack = s.stack ∧
      s'.guest.cpu.pendingTrap = s.guest.cpu.pendingTrap := by
  cases j with
  | setcc cond reg =>
    simp only [onFlags, Bool.and_eq_true, decide_eq_true_eq] at h
    obtain ⟨holds, hholds⟩ := hflags.exists_holds? h.1 h.2
    simp only [Instr.step, hholds]
    exact ⟨_, rfl, rfl, rfl⟩
  | cmov cond dst src =>
    simp only [onFlags, Bool.and_eq_true, decide_eq_true_eq] at h
    obtain ⟨holds, hholds⟩ := hflags.exists_holds? h.1 h.2
    simp only [Instr.step, hholds]
    cases holds <;> exact ⟨_, rfl, rfl, rfl⟩
  | _ => cases h

theorem gpr_of_setsScratch (h : setsScratch i = true) (hstep : i.step (alone base) s = some s')
    {r : Gpr} (hr : r ∉ scratch) : s'.gpr r = s.gpr r := by
  refine Instr.gpr_of_step hstep fun hmem => hr ?_
  exact of_decide_eq_true (List.all_eq_true.1 h r hmem)

/-- **A plain instruction cannot get stuck.** -/
theorem exists_calm_of_plain (h : plain i = true) (hbase : s.gpr .rbx = base) :
    ∃ s', i.step (alone base) s = some s' ∧ Calm s s' := by
  rw [plain, Bool.and_eq_true] at h
  obtain ⟨s', hstep, hstack, hpending⟩ := exists_step_of_hasResult h.2 hbase
  exact ⟨s', hstep, fun r hr => gpr_of_setsScratch h.1 hstep hr, hstack, hpending⟩

theorem exists_calm_of_onFlags (h : onFlags j = true) (hscratch : setsScratch j = true)
    (hflags : Defined s.flags) (base : UInt64) :
    ∃ s', j.step (alone base) s = some s' ∧ Calm s s' := by
  obtain ⟨s', hstep, hstack, hpending⟩ := exists_step_of_onFlags h hflags
  exact ⟨s', hstep, fun r hr => gpr_of_setsScratch hscratch hstep hr, hstack, hpending⟩

end Instructions

/-! ### Forms of code -/

/-- Code that may be left for some labels.  Jumps within it lead forward, to the position of
`taken`. -/
inductive Tame (leaves : Label → Prop) : Code → Prop where
  | nil : Tame leaves []
  /-- An instruction that computes. -/
  | instr {i : Instr} {rest : Code} (hi : plain i = true) (h : Tame leaves rest) :
    Tame leaves (.instr i :: rest)
  /-- A compare and an instruction on its flags. -/
  | test {i j : Instr} {rest : Code} (hi : plain i = true) (htest : isTest i = true)
    (hj : onFlags j = true) (hscratch : setsScratch j = true) (h : Tame leaves rest) :
    Tame leaves (.instr i :: .instr j :: rest)
  /-- A call of a helper. -/
  | call (helper : Helper) {rest : Code} (h : Tame leaves rest) :
    Tame leaves (.address .rax helper :: .instr (.callReg .rax) :: rest)
  /-- A way out. -/
  | leave {label : Label} {rest : Code} (hlabel : leaves label) (h : Tame leaves rest) :
    Tame leaves (.jump label :: rest)
  /-- A way out under some condition. -/
  | leaveIf (cond : Cond) {label : Label} {rest : Code} (hlabel : leaves label)
    (h : Tame leaves rest) : Tame leaves (.jumpIf cond label :: rest)
  /-- A branch. -/
  | branch (cond : Cond) {front back : Code} (hfront : Tame leaves front)
    (hback : Tame leaves back) :
    Tame leaves (.jumpIf cond .taken :: (front ++ Line.bind .taken :: back))

namespace Tame

variable {leaves leaves' : Label → Prop} {code code' : Code}

theorem append (h : Tame leaves code) (h' : Tame leaves code') : Tame leaves (code ++ code') := by
  induction h with
  | nil => exact h'
  | instr hi h ih => exact .instr hi ih
  | test hi htest hj hscratch h ih => exact .test hi htest hj hscratch ih
  | call helper h ih => exact .call helper ih
  | leave hlabel h ih => exact .leave hlabel ih
  | leaveIf cond hlabel h ih => exact .leaveIf cond hlabel ih
  | branch cond hfront hback ih ih' =>
    rw [List.cons_append, List.append_assoc, List.cons_append]
    exact .branch cond hfront ih'

/-- Only the labels that the code jumps to matter. -/
theorem mono (h : Tame leaves code) (hleaves : ∀ label ∈ code.filterMap Line.target?,
    leaves label → leaves' label) : Tame leaves' code := by
  induction h with
  | nil => exact .nil
  | instr hi h ih => exact .instr hi (ih hleaves)
  | test hi htest hj hscratch h ih => exact .test hi htest hj hscratch (ih hleaves)
  | call helper h ih => exact .call helper (ih hleaves)
  | leave hlabel h ih =>
    refine .leave (hleaves _ List.mem_cons_self hlabel) (ih fun label hmem => ?_)
    exact hleaves label (List.mem_cons_of_mem _ hmem)
  | leaveIf cond hlabel h ih =>
    refine .leaveIf cond (hleaves _ List.mem_cons_self hlabel) (ih fun label hmem => ?_)
    exact hleaves label (List.mem_cons_of_mem _ hmem)
  | branch cond hfront hback ih ih' =>
    refine .branch cond (ih fun label hmem => hleaves label ?_)
      (ih' fun label hmem => hleaves label ?_)
    · simp only [List.filterMap_cons, List.filterMap_append, Line.target?]
      exact List.mem_cons_of_mem _ (List.mem_append_left _ hmem)
    · simp only [List.filterMap_cons, List.filterMap_append, Line.target?]
      exact List.mem_cons_of_mem _ (List.mem_append_right _ hmem)

/-- The code jumps nowhere else, and `taken` has a position if it jumps there. -/
theorem leaves_of_mem (h : Tame leaves code) {label : Label}
    (hlabel : label ∈ code.filterMap Line.target?) :
    label = .taken ∧ .bind .taken ∈ code ∨ leaves label := by
  induction h with
  | nil => cases hlabel
  | instr hi h ih => exact (ih hlabel).imp_left fun h => ⟨h.1, .tail _ h.2⟩
  | test hi htest hj hscratch h ih =>
    exact (ih hlabel).imp_left fun h => ⟨h.1, .tail _ (.tail _ h.2)⟩
  | call helper h ih => exact (ih hlabel).imp_left fun h => ⟨h.1, .tail _ (.tail _ h.2)⟩
  | leave hlabel' h ih | leaveIf cond hlabel' h ih =>
    rcases List.mem_cons.1 hlabel with rfl | hlabel
    · exact .inr hlabel'
    · exact (ih hlabel).imp_left fun h => ⟨h.1, .tail _ h.2⟩
  | @branch cond front back hfront hback ih ih' =>
    have hbound : .bind .taken ∈ .jumpIf cond .taken :: (front ++ Line.bind .taken :: back) :=
      List.mem_cons_of_mem _ (List.mem_append_right _ List.mem_cons_self)
    rcases List.mem_cons.1 hlabel with rfl | hlabel
    · exact .inl ⟨rfl, hbound⟩
    · rw [List.filterMap_append, List.mem_append] at hlabel
      rcases hlabel with hlabel | hlabel
      · exact (ih hlabel).imp_left fun h => ⟨h.1, hbound⟩
      · exact (ih' hlabel).imp_left fun h => ⟨h.1, hbound⟩

theorem of_instrs {l : List Instr} (h : l.all plain = true) : Tame leaves (instrs l) := by
  induction l with
  | nil => exact .nil
  | cons i l ih =>
    rw [List.all_cons, Bool.and_eq_true] at h
    exact .instr h.1 (ih h.2)

theorem usual_of_setsScratch {i : Instr} (h : setsScratch i = true) (hret : i ≠ .ret) :
    Usual (.instr i) := by
  refine ⟨fun r hr => ?_, by simpa using hret, fun label hlabel => by cases hlabel⟩
  have hscratch : r ∈ scratch := of_decide_eq_true (List.all_eq_true.1 h r hr)
  revert hscratch
  cases r <;> decide

theorem usual_jump (label : Label) : Usual (.jump label) :=
  ⟨by simp [writes], by simp, fun label hlabel => by cases hlabel⟩

theorem usual_jumpIf (cond : Cond) (label : Label) : Usual (.jumpIf cond label) :=
  ⟨by simp [writes], by simp, fun label hlabel => by cases hlabel⟩

theorem usual_of_plain {i : Instr} (h : plain i = true) : Usual (.instr i) := by
  rw [plain, Bool.and_eq_true] at h
  refine usual_of_setsScratch h.1 ?_
  rintro rfl
  cases h.2

theorem usual (h : Tame leaves code) : ∀ line ∈ code, Usual line := by
  induction h with
  | nil => exact fun line hline => absurd hline List.not_mem_nil
  | instr hi h ih => exact List.forall_mem_cons.2 ⟨usual_of_plain hi, ih⟩
  | @test i j rest hi htest hj hscratch h ih =>
    have hret : j ≠ .ret := by
      rintro rfl
      cases hj
    exact List.forall_mem_cons.2 ⟨usual_of_plain hi,
      List.forall_mem_cons.2 ⟨usual_of_setsScratch hscratch hret, ih⟩⟩
  | call helper h ih =>
    have hcall : Usual (.instr (.callReg .rax)) :=
      ⟨by decide, by simp, fun label hlabel => by cases hlabel⟩
    have haddress : Usual (.address .rax helper) :=
      ⟨by simp [writes, untouched], by simp, fun label hlabel => by cases hlabel⟩
    exact List.forall_mem_cons.2 ⟨haddress, List.forall_mem_cons.2 ⟨hcall, ih⟩⟩
  | leave hlabel h ih => exact List.forall_mem_cons.2 ⟨usual_jump _, ih⟩
  | leaveIf cond hlabel h ih => exact List.forall_mem_cons.2 ⟨usual_jumpIf _ _, ih⟩
  | branch cond hfront hback ih ih' =>
    have htaken : Usual (.bind .taken) :=
      ⟨by simp [writes], by simp, fun label hlabel => by cases hlabel; rfl⟩
    refine List.forall_mem_cons.2 ⟨usual_jumpIf _ _, List.forall_mem_append.2 ⟨ih, ?_⟩⟩
    exact List.forall_mem_cons.2 ⟨htaken, ih'⟩

end Tame

/-! ### Fragments -/

section Fragments

variable {leaves : Label → Prop}

theorem plain_load {dst : Gpr} (hdst : dst ∈ scratch) {n : Nat} (hn : n < 2 ^ 31) {f : Field}
    (hf : Field.at? n = some f) : plain (.load dst .rbx (field n)) = true := by
  simp [plain, setsScratch, Instr.written, hasResult, toNat_immediate_field hn, hf, hdst]

theorem plain_store {n : Nat} (hn : n < 2 ^ 31) {f : Field} (hf : Field.at? n = some f)
    (hregister : isRegister f = true) (src : Gpr) :
    plain (.store .rbx (field n) src) = true := by
  simp [plain, setsScratch, Instr.written, hasResult, toNat_immediate_field hn, hf, hregister]

theorem plain_zero {dst : Gpr} (hdst : dst ∈ scratch) : plain (.zero dst) = true := by
  simp [plain, setsScratch, Instr.zero, Instr.written, AluOp.writes, hasResult, hdst]

theorem plain_cmpPending : plain (.cmpMem .rbx (field Layout.pendingTrap) 0) = true := by
  decide

theorem tame_loadInt {dst : Gpr} (hdst : dst ∈ scratch) (r : Reg) :
    Tame leaves (loadInt dst r) := by
  refine .instr ?_ .nil
  split
  · exact plain_zero hdst
  · exact plain_load hdst (layout_int_lt r) (Field.at?_int r)

theorem tame_loadFp {dst : Gpr} (hdst : dst ∈ scratch) (r : Reg) :
    Tame leaves (loadFp dst r) := by
  refine .instr ?_ .nil
  split
  · exact plain_zero hdst
  · exact plain_load hdst (layout_fp_lt r) (Field.at?_fp r)

theorem tame_storeInt (r : Reg) (src : Gpr) : Tame leaves (storeInt r src) := by
  unfold storeInt
  split
  · exact .nil
  · exact .instr (plain_store (layout_int_lt r) (Field.at?_int r) rfl src) .nil

theorem tame_storeFp (r : Reg) (src : Gpr) : Tame leaves (storeFp r src) := by
  unfold storeFp
  split
  · exact .nil
  · exact .instr (plain_store (layout_fp_lt r) (Field.at?_fp r) rfl src) .nil

theorem tame_loadOperand {dst : Gpr} (hdst : dst ∈ scratch) (rb : Operand) :
    Tame leaves (loadOperand dst rb) := by
  cases rb with
  | register r => exact tame_loadInt hdst r
  | literal value =>
    refine .instr ?_ .nil
    simp [plain, setsScratch, Instr.written, hasResult, hdst]

theorem tame_loadOperands (ra : Reg) (rb : Operand) : Tame leaves (loadOperands ra rb) :=
  (tame_loadInt (by decide) ra).append (tame_loadOperand (by decide) rb)

theorem tame_storeResult (rc : Reg) (width : Width) : Tame leaves (storeResult rc width) := by
  cases width with
  | long => exact .instr rfl (tame_storeInt rc .rax)
  | quad => exact tame_storeInt rc .rax

theorem tame_address {dst : Gpr} (hdst : dst ∈ scratch) (rb : Reg) (offset : Int32) :
    Tame leaves (address dst rb offset) := by
  refine (tame_loadInt hdst rb).append ?_
  split
  · exact .nil
  · refine .instr ?_ .nil
    simp [plain, setsScratch, Instr.written, AluOp.writes, hasResult, hdst]

theorem tame_effectiveAddress (rb : Reg) (displacement : Int16) (alignDown : Bool) :
    Tame leaves (effectiveAddress rb displacement alignDown) := by
  refine (tame_address (by decide) rb _).append ?_
  split
  · exact .instr rfl .nil
  · exact .nil

theorem tame_exitTo (hexit : leaves .exit) (target : UInt64) : Tame leaves (exitTo target) :=
  .instr rfl (.leave hexit .nil)

theorem tame_branchOn (hexit : leaves .exit) (pc : UInt64) (cond : Cond) (target : UInt64) :
    Tame leaves (branchOn pc cond target) :=
  .branch cond (tame_exitTo hexit (pc + 4)) (tame_exitTo hexit target)

theorem tame_storeDouble (fc : Reg) (precision : Precision) :
    Tame leaves (storeDouble fc precision) := by
  refine Tame.append (.of_instrs ?_) (tame_storeFp fc .rax)
  cases precision <;> rfl

end Fragments

/-! ### Instructions -/

/-- The ways out of the instruction at `pc`. -/
def Exits (pc : UInt64) (label : Label) : Prop := label = .exit ∨ ∃ kind, label = .trap pc kind

section Instructions

variable {pc : UInt64} {code : Code}

theorem exits_exit : Exits pc .exit := .inl rfl

theorem exits_trap (kind : Option TrapKind) : Exits pc (.trap pc kind) := .inr ⟨kind, rfl⟩

theorem tame_checkPending : Tame (Exits pc) (checkPending pc) :=
  .instr plain_cmpPending (.leaveIf .ne (exits_trap none) .nil)

theorem tame_checkFp : Tame (Exits pc) (checkFp pc) :=
  .instr (by decide) (.leaveIf .e (exits_trap _) .nil)

theorem tame_interpret (word : UInt32) (endsBlock : Bool) :
    Tame (Exits pc) (interpret pc word endsBlock) := by
  refine Tame.append (Tame.append (.of_instrs rfl) (.call .interpret .nil)) ?_
  split
  · exact .leave exits_exit .nil
  · exact .instr plain_cmpPending (.leaveIf .ne exits_exit .nil)

theorem tame_loadMemory (rb : Reg) (displacement : Int16) (size : AccessSize) (alignDown : Bool) :
    Tame (Exits pc) (loadMemory pc rb displacement size alignDown) :=
  ((Tame.append (tame_effectiveAddress ..) (.of_instrs rfl)).append (.call .load .nil)).append
    tame_checkPending

theorem tame_storeMemory (rb : Reg) (displacement : Int16) (size : AccessSize) (alignDown : Bool) :
    Tame (Exits pc) (storeMemory pc rb displacement size alignDown) :=
  ((Tame.append (tame_effectiveAddress ..) (.of_instrs rfl)).append (.call .store .nil)).append
    tame_checkPending

theorem tame_loadToInt (ra rb : Reg) (displacement : Int16) (size : AccessSize)
    (alignDown : Bool) : Tame (Exits pc) (loadToInt pc ra rb displacement size alignDown) := by
  unfold loadToInt
  split
  · exact .nil
  · refine Tame.append (Tame.append (tame_loadMemory ..) ?_) (tame_storeInt ra .rax)
    split
    · exact .instr rfl .nil
    · exact .nil

/-- Operands, a computation and the result. -/
theorem tame_native (ra : Reg) (rb : Operand) (rc : Reg) (width : Width) {l : List Instr}
    (hl : l.all plain = true) :
    Tame (Exits pc) (loadOperands ra rb ++ instrs l ++ storeResult rc width) :=
  ((tame_loadOperands ra rb).append (.of_instrs hl)).append (tame_storeResult rc width)

theorem tame_of_operate {op : OperateOp} {ra : Reg} {rb : Operand} {rc : Reg}
    (h : op.lower? pc ra rb rc = some code) : Tame (Exits pc) code := by
  cases op with
  | arith op scale width =>
    cases h
    refine tame_native ra rb rc width ?_
    split <;> cases op <;> cases width <;> rfl
  | arithChecked op width =>
    cases h
    have harguments : Tame (Exits pc) (instrs [.mov .qword .rdi .rax,
        .alu op.aluOp .qword .rdi .rcx, .mov .qword .rsi .rax, .mov .qword .rdx .rcx,
        .movImm .rcx (overflowMode op width)]) := .of_instrs (by cases op <;> rfl)
    have hoverflow : Tame (Exits pc) [.instr (.alu .test .qword .rax .rax),
        .jumpIf .ne (.trap pc (some .integerOverflow))] :=
      .instr rfl (.leaveIf .ne (exits_trap _) .nil)
    have hresult : Tame (Exits pc) (instrs [.alu op.aluOp width.opSize .rax .rcx]) :=
      .of_instrs (by cases op <;> rfl)
    exact ((((((tame_loadOperands ra rb).append harguments).append
      (.call .overflows .nil)).append hoverflow).append (tame_loadOperands ra rb)).append
      hresult).append (tame_storeResult rc width)
  | compare relation =>
    cases h
    have htest : Tame (Exits pc) (instrs [.alu .cmp .qword .rax .rcx,
        .setcc relation.cond .rax, .movzx .byte .rax .rax]) :=
      .test rfl rfl (by cases relation <;> rfl) rfl (.instr rfl .nil)
    exact ((tame_loadOperands ra rb).append htest).append (tame_storeResult rc .quad)
  | compareBytes =>
    cases h
    exact tame_native ra rb rc .quad rfl
  | logic op complement =>
    cases h
    refine tame_native ra rb rc .quad ?_
    cases op <;> cases complement <;> rfl
  | moveIf condition =>
    simp only [OperateOp.lower?] at h
    split at h
    · cases h
      exact .nil
    · cases h
      have htest : Tame (Exits pc) (instrs [condition.test .rax,
          .cmov condition.cond .rdx .rcx]) := by
        refine .test ?_ ?_ ?_ rfl .nil <;> cases condition <;> rfl
      exact ((((tame_loadInt (by decide) ra).append (tame_loadInt (by decide) rc)).append
        (tame_loadOperand (by decide) rb)).append htest).append (tame_storeInt rc .rdx)
  | featureMask =>
    cases h
    exact Tame.append (Tame.append (tame_loadOperand (by decide) rb) (.of_instrs rfl))
      (tame_storeInt rc .rax)
  | implementationVersion =>
    cases h
    exact .instr rfl (tame_storeInt rc .rax)
  | shift direction =>
    cases h
    exact tame_native ra rb rc .quad rfl
  | multiply width =>
    cases h
    exact tame_native ra rb rc width rfl
  | multiplyHigh =>
    cases h
    exact tame_native ra rb rc .quad rfl
  | multiplyChecked width =>
    cases h
    exact ((tame_loadOperands ra rb).append (.instr rfl (.leaveIf .o (exits_trap _) .nil))).append
      (tame_storeResult rc width)
  | signExtendByte | signExtendWord =>
    cases h
    exact Tame.append (Tame.append (tame_loadOperand (by decide) rb) (.of_instrs rfl))
      (tame_storeInt rc .rax)
  | moveFromFloat precision =>
    cases precision with
    | double =>
      cases h
      exact (tame_checkFp.append (tame_loadFp (by decide) ra)).append (tame_storeInt rc .rax)
    | single => cases h
  | zap | zapNot | byteField | countOnes | countLeadingZeros | countTrailingZeros => cases h

theorem tame_of_float {op : FloatOp} {fa fb fc : Reg} (h : op.lower? pc fa fb fc = some code) :
    Tame (Exits pc) code := by
  have himages : Tame (Exits pc) (checkFp pc ++ loadFp .rax fa ++ loadFp .rcx fb) :=
    (tame_checkFp.append (tame_loadFp (by decide) fa)).append (tame_loadFp (by decide) fb)
  cases op with
  | moveFromInt precision =>
    cases precision with
    | double =>
      cases h
      exact (tame_checkFp.append (tame_loadInt (by decide) fa)).append (tame_storeFp fc .rax)
    | single => cases h
  | sqrt precision =>
    cases h
    exact ((tame_checkFp.append (tame_loadFp (by decide) fb)).append (.of_instrs rfl)).append
      (tame_storeDouble fc precision)
  | arith op precision =>
    cases h
    refine ((himages.append ?_).append (.of_instrs rfl)).append (tame_storeDouble fc precision)
    split
    · exact .instr rfl (.instr rfl (.leaveIf .e (exits_trap _) .nil))
    · exact .nil
  | copySign bits =>
    cases h
    refine (himages.append (.of_instrs ?_)).append (tame_storeFp fc .rax)
    cases bits <;> rfl
  | compare | roundSingle | toQuad | ofQuad | longToQuad | quadToLong | writeControl | readControl
  | moveIf => cases h

theorem tame_of_memory {op : MemoryOp} {ra rb : Reg} {displacement : Int16}
    (h : op.lower? pc ra rb displacement = some code) : Tame (Exits pc) code := by
  cases op with
  | loadAddress | loadAddressHigh =>
    cases h
    exact (tame_address (by decide) rb _).append (tame_storeInt ra .rax)
  | load size | loadUnaligned =>
    cases h
    exact tame_loadToInt ..
  | store size | storeUnaligned =>
    cases h
    exact (tame_loadInt (by decide) ra).append (tame_storeMemory ..)
  | floatLoad precision =>
    cases precision with
    | double =>
      cases h
      refine tame_checkFp.append ?_
      split
      · exact .nil
      · exact (tame_loadMemory ..).append (tame_storeFp ra .rax)
    | single => cases h
  | floatStore precision =>
    cases precision with
    | double =>
      cases h
      exact (tame_checkFp.append (tame_loadFp (by decide) ra)).append (tame_storeMemory ..)
    | single => cases h
  | jump =>
    cases h
    exact (((tame_loadInt (by decide) rb).append (.of_instrs rfl)).append
      (tame_storeInt ra .rcx)).append (.leave exits_exit .nil)
  | barrier =>
    cases h
    exact .nil
  | loadLocked | storeConditional | readCycles | exchangeFlag | privileged => cases h

theorem tame_branch (op : BranchOp) (pc : UInt64) (ra : Reg) (displacement : Int) :
    Tame (Exits pc) (op.lower pc ra displacement) := by
  cases op with
  | link =>
    exact Tame.append (Tame.append (.of_instrs rfl) (tame_storeInt ra .rax))
      (tame_exitTo exits_exit _)
  | onInt condition =>
    have htest : Tame (Exits pc) (instrs [condition.test .rax]) :=
      .of_instrs (by cases condition <;> rfl)
    exact ((tame_loadInt (by decide) ra).append htest).append (tame_branchOn exits_exit ..)
  | onFloat condition =>
    have htest : Tame (Exits pc) (instrs condition.test) :=
      .of_instrs (by cases condition <;> rfl)
    exact ((tame_checkFp.append (tame_loadFp (by decide) ra)).append htest).append
      (tame_branchOn exits_exit ..)

/-- **The code of every instruction is tame.** -/
theorem tame_lowerWord {word : UInt32} (h : lowerWord? pc word = some code) :
    Tame (Exits pc) code := by
  rw [lowerWord?_eq] at h
  obtain ⟨op, -, rfl⟩ := Option.map_eq_some_iff.1 h
  cases hlower : op.lower? pc (.decode word) with
  | none => exact tame_interpret word _
  | some code =>
    unfold Operation.lower? at hlower
    split at hlower
    · exact tame_of_operate hlower
    · exact tame_of_float hlower
    · exact tame_of_memory hlower
    · cases hlower
      exact tame_branch ..
    · cases hlower

/-- The ways out of `count` instructions from `pc` on. -/
def BlockExits (pc : UInt64) (count : Nat) (label : Label) : Prop :=
  label = .exit ∨ ∃ n < count, ∃ kind, label = .trap (pc + 4 * n.toUInt64) kind

/-- **The code of consecutive instructions is tame.** -/
theorem tame_lowerWords {words : List UInt32} (h : lowerWords pc words = .ok code) :
    Tame (BlockExits pc words.length) code := by
  induction words generalizing pc code with
  | nil =>
    cases h
    exact .nil
  | cons word rest ih =>
    unfold lowerWords at h
    split at h
    · cases h
    · next first hfirst =>
      cases hrest : lowerWords (pc + 4) rest with
      | error err =>
        rw [hrest] at h
        cases h
      | ok body =>
        rw [hrest] at h
        cases h
        refine ((tame_lowerWord hfirst).mono ?_).append ((ih hrest).mono ?_)
        · rintro label - (rfl | ⟨kind, rfl⟩)
          · exact .inl rfl
          · refine .inr ⟨0, by simp, kind, ?_⟩
            rw [address_zero]
        · rintro label - (rfl | ⟨n, hn, kind, rfl⟩)
          · exact .inl rfl
          · refine .inr ⟨n + 1, by simpa using hn, kind, ?_⟩
            rw [address_succ]

end Instructions

end Block

end AlphaMachine
