import AlphaMachine.Isa.OperationTable
import AlphaMachine.Proofs.Isa.Registrations

/-!
# What the operation table holds

The operation table holds what was registered and nothing else (`Operation.table_holds`), so a fact
about every operation of the machine is a fact about the list of registrations.  In this way

* `Operation.fits_decode` : the operation found for a decoded word belongs to the format of the
  word;
* `Operation.leavesLine_eq` : the operations that can leave the straight line are exactly those
  whose words end a block;
* `Operation.ofInstruction?_eq_flushCode_iff` : the only word that discards compiled code is the
  PAL call 0x86.
-/

namespace AlphaMachine

theorem Instruction.opcode_of_key? {i : Instruction} {key : Key} (h : i.key? = some key) :
    key.opcode = i.opcode := by
  unfold Instruction.key? at h
  split at h
  · cases h; rfl
  · obtain ⟨slot, -, rfl⟩ := Option.map_eq_some_iff.1 h
    rfl

/-- The format of an instruction, and whether it is floating operate. -/
def Instruction.shape : Instruction → Format × Bool
  | .operate .. => (.operate, false)
  | .floatOperate .. => (.operate, true)
  | .memory .. => (.memory, false)
  | .branch .. => (.branch, false)
  | .pal _ => (.pal, false)

theorem Instruction.shape_decode (word : UInt32) :
    (decode word).shape = ((decode word).opcode.format, (decode word).opcode.isFloatOperate) := by
  unfold decode
  generalize Opcode.ofBits (bitField word 26 6) = opcode
  cases opcode <;> rfl

/-- The function codes of integer instructions have seven bits. -/
theorem Instruction.function_lt_of_decode {word : UInt32} {opcode : Opcode} {ra rc : Reg}
    {rb : Operand} {function : Nat} (h : decode word = .operate opcode ra rb function rc) :
    function < 128 := by
  unfold decode at h
  generalize Opcode.ofBits (bitField word 26 6) = opcode' at h
  cases hformat : opcode'.format with
  | operate =>
    simp only [hformat, decodeOperate] at h
    split at h
    · cases h
    · cases h
      exact Nat.mod_lt _ (by decide)
  | memory | branch | pal =>
    simp only [hformat] at h
    cases h

/-! ### Facts about every operation -/

namespace Operation

-- The one place where the table is evaluated: what it holds is what was registered.
theorem table_holds : table.Holds registrations :=
  DispatchTable.holds_of_build (by decide +kernel)

theorem ofInstruction?_eq_some_iff {i : Instruction} {op : Operation} :
    ofInstruction? i = some op ↔
      ∃ r ∈ registrations, i.key? = some r.key ∧ r.value = op := by
  rw [ofInstruction?, DispatchTable.lookup, Option.bind_eq_some_iff]
  simp only [table_holds.get?_eq_some_iff]
  constructor
  · rintro ⟨_, hkey, r, hr, rfl, hvalue⟩
    exact ⟨r, hr, hkey, hvalue⟩
  · rintro ⟨r, hr, hkey, hvalue⟩
    exact ⟨_, hkey, r, hr, rfl, hvalue⟩

/-- A property of every registered entry holds of the key and the operation of an
instruction. -/
theorem entry_of_ofInstruction? {P : Key × Operation → Bool}
    (hP : registrations.all (fun r => P (r.key, r.value)) = true) {i : Instruction}
    {op : Operation} (h : ofInstruction? i = some op) :
    ∃ key, i.key? = some key ∧ P (key, op) = true := by
  obtain ⟨r, hr, hkey, rfl⟩ := ofInstruction?_eq_some_iff.1 h
  exact ⟨r.key, hkey, List.all_eq_true.1 hP r hr⟩

/-- An instruction whose key is registered has the registered operation. -/
theorem ofInstruction?_of_registered {i : Instruction} {op : Operation} (key : Key)
    (hkey : i.key? = some key)
    (h : registrations.any (fun r => (r.key, r.value) == (key, op)) = true) :
    ofInstruction? i = some op := by
  obtain ⟨r, hr, hentry⟩ := List.any_eq_true.1 h
  obtain ⟨rfl, rfl⟩ := Prod.mk.inj (eq_of_beq hentry)
  exact ofInstruction?_eq_some_iff.2 ⟨r, hr, hkey, rfl⟩

/-- Operations after which execution need not go on with the following instruction. -/
def leavesLine : Operation → Bool
  | .branch _ | .pal _ | .memory .jump | .memory .privileged => true
  | _ => false

/-- **The words that end a block are those whose operation can leave the straight line.** -/
theorem leavesLine_eq {i : Instruction} {op : Operation} (h : ofInstruction? i = some op) :
    op.leavesLine = i.endsBlock := by
  obtain ⟨key, hkey, hP⟩ := entry_of_ofInstruction?
    (P := fun e => e.2.leavesLine == e.1.opcode.endsBlock) (by decide) h
  rw [Instruction.endsBlock, ← Instruction.opcode_of_key? hkey]
  exact eq_of_beq hP

/-- The format of an opcode whose words have this operation, and whether they are floating
operate words. -/
def shape : Operation → Format × Bool
  | .operate _ => (.operate, false)
  | .float _ => (.operate, true)
  | .memory _ => (.memory, false)
  | .branch _ => (.branch, false)
  | .pal _ => (.pal, false)

theorem shape_eq {i : Instruction} {op : Operation} (h : ofInstruction? i = some op) :
    op.shape = (i.opcode.format, i.opcode.isFloatOperate) := by
  obtain ⟨key, hkey, hP⟩ := entry_of_ofInstruction?
    (P := fun e => e.2.shape == (e.1.opcode.format, e.1.opcode.isFloatOperate))
    (by decide) h
  rw [← Instruction.opcode_of_key? hkey]
  exact eq_of_beq hP

/-- An operation belongs to instructions of one format. -/
inductive Fits : Operation → Instruction → Prop where
  /-- Integer operate. -/
  | operate (op : OperateOp) (opcode : Opcode) (ra : Reg) (rb : Operand) (function : Nat)
      (rc : Reg) : Fits (.operate op) (.operate opcode ra rb function rc)
  /-- Floating operate. -/
  | float (op : FloatOp) (opcode : Opcode) (fa fb : Reg) (function : Nat) (fc : Reg) :
      Fits (.float op) (.floatOperate opcode fa fb function fc)
  /-- Memory format. -/
  | memory (op : MemoryOp) (opcode : Opcode) (ra rb : Reg) (displacement : Int16) :
      Fits (.memory op) (.memory opcode ra rb displacement)
  /-- Branch format. -/
  | branch (op : BranchOp) (opcode : Opcode) (ra : Reg) (displacement : Int) :
      Fits (.branch op) (.branch opcode ra displacement)
  /-- PAL calls. -/
  | pal (op : PalOp) (function : Nat) : Fits (.pal op) (.pal function)

/-- **The operation of a word fits the decoded word.** -/
theorem fits_decode {word : UInt32} {op : Operation} (h : ofInstruction? (.decode word) = some op) :
    op.Fits (.decode word) := by
  have hshape := (shape_eq h).trans (Instruction.shape_decode word).symm
  generalize Instruction.decode word = i at hshape ⊢
  cases op <;> cases i <;> first | constructor | simp [shape, Instruction.shape] at hshape

/-! ### The PAL call that discards compiled code -/

/-- The function code of the instruction memory barrier. -/
def barrierFunction : Nat := 0x86

theorem slot?_callPal {function slot : Nat} (h : Opcode.slot? .callPal function = some slot) :
    function = slot := by
  obtain ⟨hadmits, hslot⟩ := Opcode.slot?_eq_some_iff.1 h
  have hlt : function < 2 ^ 8 := Nat.lt_succ_of_le (hadmits.1 rfl)
  exact Option.some.inj ((Opcode.masked_of_lt rfl hlt).symm.trans hslot)

theorem key_flushCode {i : Instruction} (h : ofInstruction? i = some (.pal .flushCode)) :
    i.key? = some ⟨.callPal, some barrierFunction⟩ := by
  obtain ⟨key, hkey, hP⟩ := entry_of_ofInstruction?
    (P := fun e => e.2 != .pal .flushCode || e.1 == ⟨.callPal, some barrierFunction⟩)
    (by decide) h
  have hk : key = ⟨.callPal, some barrierFunction⟩ := by simpa using hP
  rw [hkey, hk]

theorem ofInstruction?_barrier : ofInstruction? (.pal barrierFunction) = some (.pal .flushCode) :=
  ofInstruction?_of_registered ⟨.callPal, some barrierFunction⟩ rfl (by decide)

/-- **Only the instruction memory barrier discards compiled code.** -/
theorem ofInstruction?_eq_flushCode_iff {function : Nat} :
    ofInstruction? (.pal function) = some (.pal .flushCode) ↔ function = barrierFunction := by
  constructor
  · intro h
    have hkey := key_flushCode h
    simp only [Instruction.key?, Instruction.functionCode, Instruction.opcode,
      Option.map_eq_some_iff] at hkey
    obtain ⟨slot, hslot, hk⟩ := hkey
    cases hk
    exact slot?_callPal hslot
  · rintro rfl
    exact ofInstruction?_barrier

end Operation

end AlphaMachine
