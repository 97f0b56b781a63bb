import AlphaMachine.Proofs.Block.Meaning
import AlphaMachine.Proofs.Host.Arithmetic
import AlphaMachine.Proofs.Host.Conditions
import Mathlib.Tactic.Common

/-!
# What the fragments of a block do

Each fragment of compiled code, run in front of any other code.  Inside a block `rbx` holds the
address of the processor state and `r12` that of the frame (`Block.Ready`), and no fragment changes
them (`Block.Same`).

* `exec_loadInt`, `exec_storeInt` and their floating counterparts : guest registers are moved to
  and from the processor state, register 31 being zero;
* `exec_checkFp`, `exec_checkPending` : the two checks that leave for a trap;
* `exec_call` : a helper is called;
* `execFrom_trapExit` : the way out of a trap fills the pending slot and gives the address of the
  instruction.
-/

namespace AlphaMachine

namespace Host

/-! ### Registers -/

namespace State

variable (s : State) (r r' : Gpr) (x x' : Xmm) (value : UInt64)

@[simp] theorem gpr_set : (s.set r value).gpr r' = if r' = r then value else s.gpr r' := rfl

@[simp] theorem xmm_set : (s.set r value).xmm = s.xmm := rfl

@[simp] theorem flags_set : (s.set r value).flags = s.flags := rfl

@[simp] theorem stack_set : (s.set r value).stack = s.stack := rfl

@[simp] theorem guest_set : (s.set r value).guest = s.guest := rfl

@[simp] theorem flush_set : (s.set r value).flush = s.flush := rfl

@[simp] theorem xmm_setXmm (v : XmmValue) :
    (s.setXmm x v).xmm x' = if x' = x then v else s.xmm x' := rfl

@[simp] theorem gpr_setXmm (v : XmmValue) : (s.setXmm x v).gpr = s.gpr := rfl

@[simp] theorem guest_setXmm (v : XmmValue) : (s.setXmm x v).guest = s.guest := rfl

@[simp] theorem flush_setXmm (v : XmmValue) : (s.setXmm x v).flush = s.flush := rfl

@[simp] theorem stack_setXmm (v : XmmValue) : (s.setXmm x v).stack = s.stack := rfl

end State

/-! ### The processor state -/

namespace Field

@[simp] theorem at?_int (r : Reg) : at? (Layout.int r) = some (.int r) := by
  have hr := r.isLt
  have hdiv : 8 * r.val / 8 = r.val := by omega
  simp only [at?, Layout.int, Layout.pendingTrap, Layout.pendingTrapAddr, hdiv]
  rw [if_neg (by omega), if_neg (by omega), if_pos (by omega), dif_pos hr]

@[simp] theorem at?_fp (r : Reg) : at? (Layout.fp r) = some (.fp r) := by
  have hr := r.isLt
  have hdiv : (256 + 8 * r.val) / 8 = r.val + 32 := by omega
  simp only [at?, Layout.fp, Layout.pendingTrap, Layout.pendingTrapAddr, hdiv,
    Nat.add_sub_cancel]
  rw [if_neg (by omega), if_neg (by omega), if_pos (by omega), dif_neg (by omega), dif_pos hr]

@[simp] theorem at?_pendingTrap : at? Layout.pendingTrap = some .pendingTrap := rfl

@[simp] theorem at?_pendingTrapAddr : at? Layout.pendingTrapAddr = some .pendingTrapAddr := rfl

end Field

theorem toNat_immediate_field {n : Nat} (h : n < 2 ^ 31) :
    (immediate (Block.field n)).toNat = n := by
  have hnat := toNat_toUInt64_eq_emod (Block.field n).toInt64
  rw [Int32.toInt_toInt64, Block.field, Int32.toInt_ofNat_of_lt h] at hnat
  rw [immediate]
  unfold Block.field
  omega

end Host

namespace Block

open Host

variable {link : Linkage} {s : Host.State} {rest : Code}

/-- The offset of a field from `rbx`. -/
theorem offset_field (h : s.gpr .rbx = link.state) {n : Nat} (hn : n < 2 ^ 31) :
    s.offset link.environment .rbx (field n) = n := by
  unfold Host.State.offset
  rw [h, UInt64.add_comm]
  change (immediate (field n) + link.state - link.state).toNat = n
  rw [UInt64.add_sub_cancel, toNat_immediate_field hn]

/-! ### Lines -/

theorem execFrom_append (link : Linkage) (a b : Code) (position : Position) :
    execFrom link (a ++ b) position = (execFrom link a position).bind (execFrom link b) :=
  List.foldlM_append

@[simp] theorem exec_nil : exec link [] s = some (none, s) := rfl

@[simp] theorem exec_instr (i : Instr) :
    exec link (.instr i :: rest) s = (i.step link.environment s).bind (exec link rest) := by
  simp only [exec, execFrom, List.foldlM_cons, execLine]
  cases i.step link.environment s <;> rfl

@[simp] theorem exec_addressLine (dst : Gpr) (helper : Helper) :
    exec link (.address dst helper :: rest) s =
      exec link rest (s.set dst (link.address helper)) := rfl

@[simp] theorem exec_jump (label : Label) :
    exec link (.jump label :: rest) s = execFrom link rest (some label, s) := rfl

@[simp] theorem exec_bind (label : Label) : exec link (.bind label :: rest) s = exec link rest s :=
  rfl

/-- On the way to a label, and there. -/
theorem execFrom_bind (label : Label) :
    execFrom link (.bind label :: rest) (some label, s) = exec link rest s := by
  simp only [execFrom, List.foldlM_cons, execLine, if_true]
  rfl

theorem exec_jumpIf {cond : Cond} {taken : Bool} (h : cond.holds? s.flags = some taken)
    (label : Label) :
    exec link (.jumpIf cond label :: rest) s =
      if taken then execFrom link rest (some label, s) else exec link rest s := by
  simp only [exec, execFrom, List.foldlM_cons, execLine, h]
  cases taken <;> rfl

/-- The position of a label is not in some code. -/
def Unbound (label : Label) (code : Code) : Prop := ∀ line ∈ code, line ≠ .bind label

/-- On the way to a label that is not here. -/
theorem execFrom_of_unbound {label : Label} {code : Code} (h : Unbound label code)
    (s : Host.State) :
    execFrom link code (some label, s) = some (some label, s) := by
  induction code with
  | nil => rfl
  | cons line code ih =>
    have hline : execLine link (some label, s) line = some (some label, s) := by
      cases line with
      | bind label' =>
        have hne : label' ≠ label := fun heq => h _ List.mem_cons_self (heq ▸ rfl)
        simp only [execLine, hne, if_false]
      | _ => rfl
    have hrest := ih fun line hl => h line (List.mem_cons_of_mem _ hl)
    simp only [execFrom, List.foldlM_cons, hline]
    exact hrest

/-! ### Instructions in a row -/

/-- Execute instructions one after the other. -/
def steps (link : Linkage) (l : List Instr) (s : Host.State) : Option Host.State :=
  l.foldlM (fun s i => i.step link.environment s) s

@[simp] theorem steps_nil : steps link [] s = some s := rfl

@[simp] theorem steps_cons (i : Instr) (l : List Instr) :
    steps link (i :: l) s = (i.step link.environment s).bind (steps link l) := rfl

theorem exec_instrs (l : List Instr) :
    exec link (instrs l ++ rest) s = (steps link l s).bind (exec link rest) := by
  induction l generalizing s with
  | nil => rfl
  | cons i l ih =>
    rw [steps_cons]
    change exec link (.instr i :: (instrs l ++ rest)) s = _
    rw [exec_instr]
    cases i.step link.environment s with
    | none => rfl
    | some s' => exact ih

/-! ### Labels that are not bound -/

@[simp] theorem unbound_nil (label : Label) : Unbound label [] :=
  fun _ h => absurd h List.not_mem_nil

@[simp] theorem unbound_cons (label : Label) (line : Line Label Helper) (code : Code) :
    Unbound label (line :: code) ↔ line ≠ .bind label ∧ Unbound label code :=
  List.forall_mem_cons

@[simp] theorem unbound_append (label : Label) (code code' : Code) :
    Unbound label (code ++ code') ↔ Unbound label code ∧ Unbound label code' :=
  List.forall_mem_append

@[simp] theorem unbound_instrs (label : Label) (l : List Instr) : Unbound label (instrs l) := by
  intro line hline
  obtain ⟨i, -, rfl⟩ := List.mem_map.1 hline
  nofun

section Registers

variable (label : Label) (r : Reg) (g : Gpr)

@[simp] theorem unbound_loadInt : Unbound label (loadInt g r) := unbound_instrs label _

@[simp] theorem unbound_loadFp : Unbound label (loadFp g r) := unbound_instrs label _

@[simp] theorem unbound_storeInt : Unbound label (storeInt r g) := by
  unfold storeInt
  split <;> simp

@[simp] theorem unbound_storeFp : Unbound label (storeFp r g) := by
  unfold storeFp
  split <;> simp

@[simp] theorem unbound_loadOperand (rb : Operand) : Unbound label (loadOperand g rb) := by
  cases rb <;> simp [loadOperand]

end Registers

/-! ### States -/

/-- Inside a block: the two base registers are in place and no trap is pending. -/
structure Ready (link : Linkage) (s : Host.State) : Prop where
  /-- `rbx` holds the address of the processor state. -/
  state : s.gpr .rbx = link.state
  /-- `r12` holds the address of the frame. -/
  frame : s.gpr .r12 = link.frame
  /-- The pending slot is empty. -/
  pending : s.guest.cpu.pendingTrap = 0

/-- What the code of an instruction never changes. -/
structure Kept (s s' : Host.State) : Prop where
  /-- The address of the processor state. -/
  rbx : s'.gpr .rbx = s.gpr .rbx
  /-- The stack pointer. -/
  rsp : s'.gpr .rsp = s.gpr .rsp
  /-- The address of the frame. -/
  r12 : s'.gpr .r12 = s.gpr .r12
  /-- The stack in use. -/
  stack : s'.liveStack = s.liveStack

theorem Kept.refl (s : Host.State) : Kept s s := ⟨rfl, rfl, rfl, rfl⟩

theorem Kept.trans {s₁ s₂ s₃ : Host.State} (h : Kept s₁ s₂) (h' : Kept s₂ s₃) : Kept s₁ s₃ :=
  ⟨h'.rbx.trans h.rbx, h'.rsp.trans h.rsp, h'.r12.trans h.r12, h'.stack.trans h.stack⟩

/-- Only scratch registers and flags differ. -/
structure Same (s s' : Host.State) : Prop extends Kept s s' where
  /-- The guest machine. -/
  guest : s'.guest = s.guest
  /-- The request to discard code. -/
  flush : s'.flush = s.flush

theorem Same.refl (s : Host.State) : Same s s := ⟨Kept.refl s, rfl, rfl⟩

theorem Same.trans {s₁ s₂ s₃ : Host.State} (h : Same s₁ s₂) (h' : Same s₂ s₃) : Same s₁ s₃ :=
  ⟨h.toKept.trans h'.toKept, h'.guest.trans h.guest, h'.flush.trans h.flush⟩

theorem Ready.same {s' : Host.State} (h : Ready link s) (hs : Same s s') : Ready link s' :=
  ⟨hs.rbx.trans h.state, hs.r12.trans h.frame, by rw [hs.guest]; exact h.pending⟩

/-! ### Guest registers -/

/-- The state after a value was loaded from a guest register: the load of register 31 also sets
flags. -/
def loaded (s : Host.State) (dst : Gpr) (r : Reg) (value : UInt64) : Host.State :=
  { s.set dst value with
    flags := if r = Reg.zero then AluOp.sizedFlags .xor .dword (s.gpr dst) (s.gpr dst) s.flags
      else s.flags }

section Loaded

variable (dst : Gpr) (r : Reg) (value : UInt64)

@[simp] theorem gpr_loaded (r' : Gpr) :
    (loaded s dst r value).gpr r' = if r' = dst then value else s.gpr r' := rfl

@[simp] theorem guest_loaded : (loaded s dst r value).guest = s.guest := rfl

@[simp] theorem flush_loaded : (loaded s dst r value).flush = s.flush := rfl

@[simp] theorem stack_loaded : (loaded s dst r value).stack = s.stack := rfl

end Loaded

theorem exec_zero (dst : Gpr) :
    exec link (instrs [.zero dst] ++ rest) s = exec link rest (loaded s dst Reg.zero 0) := by
  have hvalue : AluOp.sized .xor .dword (s.gpr dst) (s.gpr dst) = 0 := by
    simp [AluOp.sized, AluOp.value]
  simp only [exec_instrs, steps_cons, steps_nil, Instr.zero, Instr.step, AluOp.writes, if_true,
    hvalue, Option.bind_some]
  rfl

theorem exec_load (h : s.gpr .rbx = link.state) (dst : Gpr) {n : Nat} (hn : n < 2 ^ 31)
    {f : Field} (hf : Field.at? n = some f) :
    exec link (instrs [.load dst .rbx (field n)] ++ rest) s =
      exec link rest (s.set dst (f.read s.guest.cpu)) := by
  simp only [exec_instrs, steps_cons, steps_nil, Instr.step, Host.State.readQuad,
    offset_field h hn, hf, Option.map_some, Option.bind_some]

theorem exec_store (h : s.gpr .rbx = link.state) (src : Gpr) {n : Nat} (hn : n < 2 ^ 31)
    {f : Field} (hf : Field.at? n = some f) :
    exec link (instrs [.store .rbx (field n) src] ++ rest) s =
      exec link rest { s with guest.cpu := f.write s.guest.cpu (s.gpr src) } := by
  simp only [exec_instrs, steps_cons, steps_nil, Instr.step, Host.State.writeQuad,
    offset_field h hn, hf, Option.map_some, Option.bind_some]

theorem layout_int_lt (r : Reg) : Layout.int r < 2 ^ 31 := by
  have hr := r.isLt
  simp only [Layout.int]
  omega

theorem layout_fp_lt (r : Reg) : Layout.fp r < 2 ^ 31 := by
  have hr := r.isLt
  simp only [Layout.fp]
  omega

theorem exec_loadInt (h : s.gpr .rbx = link.state) (dst : Gpr) (r : Reg) :
    exec link (loadInt dst r ++ rest) s =
      exec link rest (loaded s dst r (s.guest.cpu.readInt r)) := by
  unfold loadInt
  by_cases hr : r = Reg.zero
  · subst hr
    exact exec_zero dst
  · rw [if_neg hr, exec_load h dst (layout_int_lt r) (Field.at?_int r)]
    simp only [loaded, hr, if_false, Processor.readInt, RegisterFile.read, Field.read]
    rfl

theorem exec_loadFp (h : s.gpr .rbx = link.state) (dst : Gpr) (r : Reg) :
    exec link (loadFp dst r ++ rest) s =
      exec link rest (loaded s dst r (s.guest.cpu.readFp r)) := by
  unfold loadFp
  by_cases hr : r = Reg.zero
  · subst hr
    exact exec_zero dst
  · rw [if_neg hr, exec_load h dst (layout_fp_lt r) (Field.at?_fp r)]
    simp only [loaded, hr, if_false, Processor.readFp, RegisterFile.read, Field.read]
    rfl

theorem exec_storeInt (h : s.gpr .rbx = link.state) (r : Reg) (src : Gpr) :
    exec link (storeInt r src ++ rest) s =
      exec link rest { s with guest := s.guest.writeInt r (s.gpr src) } := by
  unfold storeInt
  by_cases hr : r = Reg.zero
  · simp only [hr, if_true, List.nil_append, Machine.writeInt, Processor.writeInt,
      RegisterFile.write]
  · rw [if_neg hr, exec_store h src (layout_int_lt r) (Field.at?_int r)]
    simp only [hr, if_false, Machine.writeInt, Processor.writeInt, RegisterFile.write, Field.write]

theorem exec_storeFp (h : s.gpr .rbx = link.state) (r : Reg) (src : Gpr) :
    exec link (storeFp r src ++ rest) s =
      exec link rest { s with guest := s.guest.writeFp r (s.gpr src) } := by
  unfold storeFp
  by_cases hr : r = Reg.zero
  · simp only [hr, if_true, List.nil_append, Machine.writeFp, Processor.writeFp,
      RegisterFile.write]
  · rw [if_neg hr, exec_store h src (layout_fp_lt r) (Field.at?_fp r)]
    simp only [hr, if_false, Machine.writeFp, Processor.writeFp, RegisterFile.write, Field.write]

/-- The state after an operand was loaded. -/
def loadedOperand (s : Host.State) (dst : Gpr) : Operand → Host.State
  | .register r => loaded s dst r (s.guest.cpu.readInt r)
  | .literal value => s.set dst value.toUInt64

theorem exec_loadOperand (h : s.gpr .rbx = link.state) (dst : Gpr) (rb : Operand) :
    exec link (loadOperand dst rb ++ rest) s = exec link rest (loadedOperand s dst rb) := by
  cases rb with
  | register r => exact exec_loadInt h dst r
  | literal value => rfl

section LoadedOperand

variable (dst : Gpr) (rb : Operand)

@[simp] theorem gpr_loadedOperand (r' : Gpr) :
    (loadedOperand s dst rb).gpr r' =
      if r' = dst then s.guest.cpu.readOperand rb else s.gpr r' := by
  cases rb <;> rfl

@[simp] theorem guest_loadedOperand : (loadedOperand s dst rb).guest = s.guest := by
  cases rb <;> rfl

@[simp] theorem flush_loadedOperand : (loadedOperand s dst rb).flush = s.flush := by
  cases rb <;> rfl

@[simp] theorem stack_loadedOperand : (loadedOperand s dst rb).stack = s.stack := by
  cases rb <;> rfl

end LoadedOperand

/-! ### Checks -/

theorem exec_checkFp (h : s.gpr .rbx = link.state) (pc : UInt64)
    (hrest : Unbound (.trap pc (some .floatDisabled)) rest) :
    ∃ flags, exec link (checkFp pc ++ rest) s =
      if s.guest.cpu.fpEnabled then exec link rest { s with flags }
      else some (some (.trap pc (some .floatDisabled)), { s with flags }) := by
  have hoffset : s.offset link.environment .rbx (field Layout.fpEnabled) = Layout.fpEnabled :=
    offset_field h (by decide)
  refine ⟨AluOp.flags .cmp s.guest.cpu.fpEnabled.toUInt8.toBitVec (0 : UInt8).toBitVec s.flags, ?_⟩
  simp only [checkFp, List.cons_append, List.nil_append, exec_instr, Instr.step,
    Host.State.readByte, hoffset, if_true, Option.map_some, Option.bind_some]
  rw [exec_jumpIf (holds?_e_cmp _ _ s.flags)]
  cases s.guest.cpu.fpEnabled with
  | true => rfl
  | false => exact execFrom_of_unbound hrest _

/-- A compare of the pending slot with zero. -/
theorem exec_cmpPending (h : s.gpr .rbx = link.state) {label : Label} (hrest : Unbound label rest) :
    ∃ flags, exec link (.instr (.cmpMem .rbx (field Layout.pendingTrap) 0) ::
        .jumpIf .ne label :: rest) s =
      if s.guest.cpu.pendingTrap = 0 then exec link rest { s with flags }
      else some (some label, { s with flags }) := by
  have hoffset : s.offset link.environment .rbx (field Layout.pendingTrap) = Layout.pendingTrap :=
    offset_field h (by decide)
  refine ⟨AluOp.flags .cmp s.guest.cpu.pendingTrap.toBitVec
    (0 : Int8).toInt64.toUInt64.toBitVec s.flags, ?_⟩
  simp only [exec_instr, Instr.step, Host.State.readQuad, hoffset, Field.at?_pendingTrap,
    Option.map_some, Option.bind_some, Field.read]
  have hzero : (0 : Int8).toInt64.toUInt64 = 0 := by decide
  rw [exec_jumpIf (holds?_ne_cmp _ _ s.flags), hzero]
  by_cases hp : s.guest.cpu.pendingTrap = 0
  · rw [if_pos hp, hp]
    rfl
  · have hne : (s.guest.cpu.pendingTrap.toBitVec != (0 : UInt64).toBitVec) = true := by
      rw [bne_iff_ne]
      exact fun heq => hp (UInt64.toBitVec_inj.1 heq)
    rw [if_neg hp, hne, if_pos rfl]
    exact execFrom_of_unbound hrest _

theorem exec_checkPending (h : s.gpr .rbx = link.state) (pc : UInt64)
    (hrest : Unbound (.trap pc none) rest) :
    ∃ flags, exec link (checkPending pc ++ rest) s =
      if s.guest.cpu.pendingTrap = 0 then exec link rest { s with flags }
      else some (some (.trap pc none), { s with flags }) :=
  exec_cmpPending h hrest

/-! ### Calls and exits -/

theorem liveStack_returned (link : Linkage) (s : Host.State) (value : UInt64) (m : Machine) :
    (link.returned s value m).liveStack = s.liveStack := by
  funext a
  simp only [Host.State.liveStack, Linkage.returned]
  by_cases h : s.gpr .rsp ≤ a
  · simp only [h, if_true]
  · simp only [h, if_false]

theorem exec_call (helper : Helper) :
    exec link (call helper ++ rest) s =
      (link.callHelper (s.set .rax (link.address helper)) helper).bind (exec link rest) := by
  simp only [call, List.cons_append, List.nil_append, exec_addressLine, exec_instr, Instr.step,
    Linkage.environment, Host.State.gpr_set, if_true, link.helperAt_address, Option.bind_some]

theorem exec_exitTo (target : UInt64) (hrest : Unbound .exit rest) :
    exec link (exitTo target ++ rest) s = some (some .exit, s.set .rax target) := by
  simp only [exitTo, List.cons_append, List.nil_append, exec_instr, Instr.step, Option.bind_some,
    exec_jump]
  exact execFrom_of_unbound hrest _

/-- The two ways out of a conditional branch. -/
theorem exec_branchOn (pc : UInt64) {cond : Cond} {taken : Bool}
    (h : cond.holds? s.flags = some taken) (target : UInt64) :
    exec link (branchOn pc cond target) s =
      some (some .exit, s.set .rax (if taken then target else pc + 4)) := by
  simp only [branchOn, exitTo, List.cons_append, List.nil_append]
  rw [exec_jumpIf h]
  cases taken <;> rfl

theorem immediate_code (kind : TrapKind) : immediate kind.code.toUInt32.toInt32 = kind.code := by
  cases kind <;> decide

/-- The way out of a trap that a helper recorded. -/
theorem execFrom_trapExit_none (pc : UInt64) (s : Host.State) :
    execFrom link (trapExit pc none) (some (.trap pc none), s) =
      some (some .exit, s.set .rax pc) := by
  rw [trapExit, List.cons_append, execFrom_bind]
  rfl

theorem exec_storeImm (h : s.gpr .rbx = link.state) (imm : Int32) {n : Nat} (hn : n < 2 ^ 31)
    {f : Field} (hf : Field.at? n = some f) :
    exec link (.instr (.storeImm .rbx (field n) imm) :: rest) s =
      exec link rest { s with guest.cpu := f.write s.guest.cpu (immediate imm) } := by
  simp only [exec_instr, Instr.step, Host.State.writeQuad, offset_field h hn, hf, Option.map_some,
    Option.bind_some]

/-- The way out of a trap of a kind records the kind. -/
theorem execFrom_trapExit_some (h : s.gpr .rbx = link.state) (pc : UInt64) (kind : TrapKind) :
    execFrom link (trapExit pc (some kind)) (some (.trap pc (some kind)), s) =
      some (some .exit,
        { s with guest := pend s.guest ⟨kind, pc, none⟩ }.set .rax pc) := by
  rw [trapExit, List.cons_append, execFrom_bind, ← List.append_nil (exitTo pc)]
  simp only [instrs, List.map_cons, List.map_nil, List.cons_append, List.nil_append]
  rw [exec_storeImm h _ (by decide) Field.at?_pendingTrap,
    exec_storeImm (by exact h) _ (by decide) Field.at?_pendingTrapAddr,
    exec_exitTo pc (unbound_nil _), immediate_code]
  rfl

end Block

end AlphaMachine
