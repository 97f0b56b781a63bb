import AlphaMachine.Proofs.Block.Meaning
import AlphaMachine.Proofs.Exec.Unaligned
import AlphaMachine.Proofs.Host.Arithmetic
import AlphaMachine.Proofs.Host.Conditions

/-!
# Exact arithmetic

The machine computes with wrapped words and decides about overflow and order by sign bits.  Here
both are compared with the integers: a word is read as a signed number of a width, and the exact
result of an operation either fits the width or does not (`Width.Fits`).

A longword operation computes with whole words, whose upper halves mean nothing.  `Width.low` is
the part of a word that its width looks at, and every fact about a width is a fact about bit
vectors of that many bits.

* `Integer.arithChecked_eq_ite`, `Integer.multiplyChecked_eq_ite` : a checked result is the exact
  result, if that fits;
* `ConditionCodes.less_quad` : the codes of a difference say which of two signed numbers is less;
* `Instruction.arithmetic_exact` : the checked instructions, the compares and the helper that
  decides about overflow in compiled code.
-/

namespace AlphaMachine

/-! ### Numbers of a width -/

namespace Width

/-- Whether a number can be written as a signed number of this width. -/
def Fits : Width → Int → Prop
  | .long, n => -2 ^ 31 ≤ n ∧ n < 2 ^ 31
  | .quad, n => -2 ^ 63 ≤ n ∧ n < 2 ^ 63

instance (width : Width) (n : Int) : Decidable (width.Fits n) := by
  cases width <;> exact inferInstanceAs (Decidable (_ ∧ _))

/-- The part of a word that an operation of this width looks at. -/
def low : (width : Width) → UInt64 → BitVec width.bits
  | .long, value => value.toUInt32.toBitVec
  | .quad, value => value.toBitVec

theorem toInt_low (width : Width) (value : UInt64) :
    (width.low value).toInt = width.toInt value := by
  cases width <;> rfl

theorem fits_iff (width : Width) (n : Int) :
    width.Fits n ↔ -2 ^ (width.bits - 1) ≤ n ∧ n < 2 ^ (width.bits - 1) := by
  cases width <;> rfl

/-- A register holds the number that was written to it. -/
theorem Fits.toInt_ofInt {width : Width} {n : Int} (h : width.Fits n) :
    (UInt64.ofInt n).toInt64.toInt = n := by
  have hquad : -2 ^ 63 ≤ n ∧ n < 2 ^ 63 := by
    cases width with
    | quad => exact h
    | long =>
      obtain ⟨hlow, hhigh⟩ := h
      omega
  have hword : UInt64.ofInt n = (Int64.ofInt n).toUInt64 := by
    rw [← ofInt_toInt64, Int64.toInt_ofInt_of_le hquad.1 hquad.2]
  rw [hword]
  exact Int64.toInt_ofInt_of_le hquad.1 hquad.2

end Width

/-! ### Overflow by sign bits -/

namespace AddSub

/-- The exact sum or difference. -/
def exact : AddSub → Int → Int → Int
  | .add, x, y => x + y
  | .sub, x, y => x - y

variable {n : Nat}

/-- The wrapped sum or difference of bit vectors. -/
def wrapped : AddSub → BitVec n → BitVec n → BitVec n
  | .add, x, y => x + y
  | .sub, x, y => x - y

/-- Whether the exact result does not fit. -/
def overflows : AddSub → BitVec n → BitVec n → Bool
  | .add, x, y => x.saddOverflow y
  | .sub, x, y => x.ssubOverflow y

theorem overflows_iff (op : AddSub) (x y : BitVec n) :
    op.overflows x y = true ↔
      ¬ (-2 ^ (n - 1) ≤ op.exact x.toInt y.toInt ∧ op.exact x.toInt y.toInt < 2 ^ (n - 1)) := by
  cases op with
  | add =>
    rw [overflows, BitVec.saddOverflow, Bool.or_eq_true, decide_eq_true_iff, decide_eq_true_iff,
      exact]
    omega
  | sub =>
    rw [overflows, BitVec.ssubOverflow, Bool.or_eq_true, decide_eq_true_iff, decide_eq_true_iff,
      exact]
    omega

/-- Nothing is lost in a wrapped result that does not overflow. -/
theorem toInt_wrapped {op : AddSub} {x y : BitVec n} (h : ¬ op.overflows x y = true) :
    (op.wrapped x y).toInt = op.exact x.toInt y.toInt := by
  cases op with
  | add => exact BitVec.toInt_add_of_not_saddOverflow h
  | sub => exact BitVec.toInt_sub_of_not_ssubOverflow h

/-- Three sign bits decide about overflow. -/
theorem signOverflow_wrapped (op : AddSub) (x y : BitVec n) :
    ConditionCodes.signOverflow x.msb y.msb (op.wrapped x y).msb (op = .sub) =
      op.overflows x y := by
  cases op with
  | add =>
    rw [overflows, BitVec.saddOverflow_eq]
    rfl
  | sub => exact ConditionCodes.signOverflow_sub x y

end AddSub

theorem Width.low_apply (width : Width) (op : AddSub) (a b : UInt64) :
    width.low (op.apply a b) = op.wrapped (width.low a) (width.low b) := by
  cases width with
  | quad => cases op <;> rfl
  | long =>
    cases op with
    | add => exact congrArg UInt32.toBitVec (UInt64.toUInt32_add a b)
    | sub => exact congrArg UInt32.toBitVec (UInt64.toUInt32_sub a b)

namespace ConditionCodes

/-- The codes look at the signs of the parts that the width looks at. -/
theorem overflow_codes (width : Width) (result a b : UInt64) (subtract : Bool) :
    (width.codes result a b subtract).overflow =
      signOverflow (width.low a).msb (width.low b).msb (width.low result).msb subtract := by
  cases width with
  | quad =>
    simp only [Width.codes, quad, sign_eq_msb]
    rfl
  | long =>
    simp only [Width.codes, long, longSign_eq_msb]
    rfl

/-- **Overflow by sign bits is overflow of the exact result.** -/
theorem overflow_apply_iff (op : AddSub) (width : Width) (a b : UInt64) :
    (width.codes (op.apply a b) a b (op = .sub)).overflow = true ↔
      ¬ width.Fits (op.exact (width.toInt a) (width.toInt b)) := by
  rw [overflow_codes, Width.low_apply, AddSub.signOverflow_wrapped, AddSub.overflows_iff,
    Width.toInt_low, Width.toInt_low, Width.fits_iff]

/-- **The sign of a wrapped difference, corrected by its overflow, tells the order.** -/
theorem less_quad (a b : UInt64) :
    (quad (a - b) a b true).less = decide (a.toInt64.toInt < b.toInt64.toInt) := by
  have hover : (quad (a - b) a b true).overflow = true ↔
      ¬ Width.quad.Fits (a.toInt64.toInt - b.toInt64.toInt) := overflow_apply_iff .sub .quad a b
  have hnegative : (quad (a - b) a b true).negative = decide ((a - b).toInt64.toInt < 0) := by
    change ((a - b) >>> 63 == 1) = _
    rw [sign_eq_msb, msb_eq_toInt64, Bool.eq_iff_iff, decide_eq_true_iff, decide_eq_true_iff]
    exact Int64.lt_iff_toInt_lt
  have hwrap : (a - b).toInt64.toInt = (a.toInt64.toInt - b.toInt64.toInt).bmod (2 ^ 64) :=
    BitVec.toInt_sub (x := a.toBitVec) (y := b.toBitVec)
  have hrange (x : UInt64) : -2 ^ 63 ≤ x.toInt64.toInt ∧ x.toInt64.toInt < 2 ^ 63 :=
    ⟨x.toInt64.le_toInt, x.toInt64.toInt_lt⟩
  obtain ⟨ha, ha'⟩ := hrange a
  obtain ⟨hb, hb'⟩ := hrange b
  -- a difference that does not fit has the wrong sign
  have hsign : (a - b).toInt64.toInt < 0 ↔
      (Width.quad.Fits (a.toInt64.toInt - b.toInt64.toInt) ↔
        a.toInt64.toInt < b.toInt64.toInt) := by
    rw [hwrap, Int.bmod_def, Width.Fits]
    split <;> omega
  rw [less, hnegative, Bool.eq_iff_iff, decide_eq_true_iff, bne_iff_ne, ne_eq, Bool.eq_iff_iff,
    decide_eq_true_iff, hover, hsign]
  by_cases hfits : Width.quad.Fits (a.toInt64.toInt - b.toInt64.toInt) <;> simp [hfits]

end ConditionCodes

/-! ### Results -/

namespace Integer

/-- Nothing is lost in a wrapped result whose exact counterpart fits. -/
theorem toInt_apply {op : AddSub} {width : Width} {a b : UInt64}
    (h : width.Fits (op.exact (width.toInt a) (width.toInt b))) :
    width.toInt (op.apply a b) = op.exact (width.toInt a) (width.toInt b) := by
  rw [Width.fits_iff, ← Width.toInt_low, ← Width.toInt_low] at h
  have hover : ¬ op.overflows (width.low a) (width.low b) = true := fun hover =>
    (op.overflows_iff _ _).1 hover h
  rw [← Width.toInt_low, Width.low_apply, AddSub.toInt_wrapped hover, Width.toInt_low,
    Width.toInt_low]

/-- **A checked sum or difference is the exact one, if that fits.** -/
theorem arithChecked_eq_ite (op : AddSub) (width : Width) (a b : UInt64) :
    arithChecked op width a b =
      if width.Fits (op.exact (width.toInt a) (width.toInt b)) then
        some (UInt64.ofInt (op.exact (width.toInt a) (width.toInt b))) else none := by
  have hover := ConditionCodes.overflow_apply_iff op width a b
  unfold arithChecked
  dsimp only
  by_cases hfits : width.Fits (op.exact (width.toInt a) (width.toInt b))
  · rw [if_neg fun h => hover.1 h hfits, if_pos hfits, ← toInt_apply hfits, Width.ofInt_toInt]
  · rw [if_pos (hover.2 hfits), if_neg hfits]

/-- **A checked product is the exact one, if that fits.** -/
theorem multiplyChecked_eq_ite (width : Width) (a b : UInt64) :
    multiplyChecked width a b =
      if width.Fits (width.toInt a * width.toInt b) then
        some (UInt64.ofInt (width.toInt a * width.toInt b)) else none := by
  cases width <;> rfl

end Integer

/-- What a compare decides. -/
def Comparison.Holds : Comparison → UInt64 → UInt64 → Prop
  | .eq, a, b => a = b
  | .lt, a, b => a.toInt64.toInt < b.toInt64.toInt
  | .le, a, b => a.toInt64.toInt ≤ b.toInt64.toInt
  | .ult, a, b => a.toNat < b.toNat
  | .ule, a, b => a.toNat ≤ b.toNat

instance (relation : Comparison) (a b : UInt64) : Decidable (relation.Holds a b) := by
  cases relation <;> unfold Comparison.Holds <;> infer_instance

theorem zero_quad_sub (a b : UInt64) :
    (ConditionCodes.quad (a - b) a b true).zero = decide (a = b) := by
  change (a - b == 0) = decide (a = b)
  rw [← Host.toBitVec_sub_beq_zero, Host.sub_beq_zero, Bool.eq_iff_iff, beq_iff_eq,
    decide_eq_true_iff, UInt64.toBitVec_inj]

/-- **A compare decides the exact comparison.** -/
theorem Integer.compare_eq_decide (relation : Comparison) (a b : UInt64) :
    compare relation a b = decide (relation.Holds a b) := by
  have hsigned : a.toInt64.toInt = b.toInt64.toInt ↔ a = b :=
    BitVec.toInt_inj.trans UInt64.toBitVec_inj
  rw [Bool.eq_iff_iff, decide_eq_true_iff]
  cases relation with
  | eq => exact beq_iff_eq
  | lt =>
    change (ConditionCodes.quad (a - b) a b true).less = true ↔ _
    rw [ConditionCodes.less_quad, decide_eq_true_iff]
    rfl
  | le =>
    change ((ConditionCodes.quad (a - b) a b true).less || _) = true ↔
      a.toInt64.toInt ≤ b.toInt64.toInt
    rw [ConditionCodes.less_quad, zero_quad_sub, Bool.or_eq_true, decide_eq_true_iff,
      decide_eq_true_iff, ← hsigned]
    omega
  | ult => exact decide_eq_true_iff
  | ule =>
    change (decide (a < b) || _) = true ↔ a.toNat ≤ b.toNat
    rw [zero_quad_sub, Bool.or_eq_true, decide_eq_true_iff, decide_eq_true_iff,
      UInt64.lt_iff_toNat_lt, ← UInt64.toNat_inj]
    omega

/-! ### Instructions -/

/-- The operations that trap when the exact result does not fit. -/
inductive CheckedOp where
  /-- `ADDx/V` and `SUBx/V`. -/
  | addSub (op : AddSub)
  /-- `MULx/V`. -/
  | product

namespace CheckedOp

/-- The exact result. -/
def exact : CheckedOp → Int → Int → Int
  | .addSub op, x, y => op.exact x y
  | .product, x, y => x * y

/-- The exact result of the operands in a machine, read as signed numbers of a width. -/
def result (op : CheckedOp) (width : Width) (m : Machine) (ra : Reg) (rb : Operand) : Int :=
  op.exact (width.toInt (m.cpu.readInt ra)) (width.toInt (m.cpu.readOperand rb))

/-- The operation of the machine. -/
def operation : CheckedOp → Width → OperateOp
  | .addSub op, width => .arithChecked op width
  | .product, width => .multiplyChecked width

/-- The opcode of the family. -/
def opcode : CheckedOp → Opcode
  | .addSub _ => .intA
  | .product => .intM

/-- The function code. -/
def function : CheckedOp → Width → Nat
  | .addSub .add, .long => 0x40
  | .addSub .sub, .long => 0x49
  | .addSub .add, .quad => 0x60
  | .addSub .sub, .quad => 0x69
  | .product, .long => 0x40
  | .product, .quad => 0x60

/-- The checked instruction with these registers. -/
def instruction (op : CheckedOp) (width : Width) (ra : Reg) (rb : Operand) (rc : Reg) :
    Instruction :=
  .operate op.opcode ra rb (op.function width) rc

theorem ofInstruction?_instruction (op : CheckedOp) (width : Width) (ra : Reg) (rb : Operand)
    (rc : Reg) :
    Operation.ofInstruction? (op.instruction width ra rb rc) =
      some (.operate (op.operation width)) := by
  refine Operation.ofInstruction?_of_registered ⟨op.opcode, some (op.function width)⟩ ?_ ?_
  · rcases op with ⟨_ | _⟩ | _ <;> cases width <;> rfl
  · rcases op with ⟨_ | _⟩ | _ <;> cases width <;> decide

example : .decode 0x40220C03 = (CheckedOp.addSub .add).instruction .quad 1 (.register 2) 3 := by
  decide

end CheckedOp

/-- The function code of a compare. -/
def Comparison.function : Comparison → Nat
  | .eq => 0x2D
  | .lt => 0x4D
  | .le => 0x6D
  | .ult => 0x1D
  | .ule => 0x3D

/-- The compare with these registers. -/
def Comparison.instruction (relation : Comparison) (ra : Reg) (rb : Operand) (rc : Reg) :
    Instruction :=
  .operate .intA ra rb relation.function rc

theorem Comparison.ofInstruction?_instruction (relation : Comparison) (ra : Reg) (rb : Operand)
    (rc : Reg) :
    Operation.ofInstruction? (relation.instruction ra rb rc) =
      some (.operate (.compare relation)) := by
  refine Operation.ofInstruction?_of_registered ⟨.intA, some relation.function⟩ ?_ ?_
  · cases relation <;> rfl
  · cases relation <;> decide

/-! ### The helper of compiled code -/

namespace Block

/-- The operation that a mode of the overflow helper stands for. -/
def modeOp (mode : UInt64) : AddSub := if mode &&& 1 ≠ 0 then .sub else .add

/-- The width that a mode of the overflow helper stands for. -/
def modeWidth (mode : UInt64) : Width := if mode &&& 2 ≠ 0 then .long else .quad

/-- What the overflow helper answers about the wrapped sum or difference of two words. -/
def overflowAnswer (mode a b : UInt64) : UInt64 :=
  helpOverflows ((modeOp mode).apply a b) a b mode

theorem overflowAnswer_eq_ite (mode a b : UInt64) :
    overflowAnswer mode a b =
      if (modeWidth mode).Fits
        ((modeOp mode).exact ((modeWidth mode).toInt a) ((modeWidth mode).toInt b)) then 0
      else 1 := by
  have hmode : (mode &&& 1 ≠ 0 : Bool) = decide (modeOp mode = .sub) := by
    unfold modeOp
    split <;> simp [*]
  let codes := (modeWidth mode).codes
  have hhelp : overflowAnswer mode a b =
      (codes ((modeOp mode).apply a b) a b (modeOp mode = .sub)).overflow.toUInt64 := by
    rw [← hmode]
    rfl
  have hover := ConditionCodes.overflow_apply_iff (modeOp mode) (modeWidth mode) a b
  rw [hhelp]
  split
  · next hfits => rw [Bool.eq_false_iff.2 fun h => hover.1 h hfits]; rfl
  · next hfits => rw [hover.2 hfits]; rfl

end Block

namespace Instruction

open Block

variable (m : Machine) (ra rc : Reg) (rb : Operand) (pc : UInt64)

theorem execute_checked (op : CheckedOp) (width : Width) :
    (op.instruction width ra rb rc).execute pc m =
      if width.Fits (op.result width m ra rb) then
        .done (m.writeInt rc (UInt64.ofInt (op.result width m ra rb))) .next
      else m.raise .integerOverflow pc := by
  rw [execute_of_some (op.ofInstruction?_instruction width ra rb rc)]
  cases op with
  | addSub op =>
    change m.returnChecked pc rc (Integer.arithChecked op width _ _) = _
    rw [Integer.arithChecked_eq_ite, apply_ite (m.returnChecked pc rc)]
    rfl
  | product =>
    change m.returnChecked pc rc (Integer.multiplyChecked width _ _) = _
    rw [Integer.multiplyChecked_eq_ite, apply_ite (m.returnChecked pc rc)]
    rfl

theorem execute_compare (relation : Comparison) :
    (relation.instruction ra rb rc).execute pc m =
      .done (m.writeInt rc
        (if relation.Holds (m.cpu.readInt ra) (m.cpu.readOperand rb) then 1 else 0)) .next := by
  rw [execute_of_some (relation.ofInstruction?_instruction ra rb rc)]
  change m.returnInt rc (Integer.compare relation _ _).toUInt64 = _
  rw [Integer.compare_eq_decide, Machine.returnInt]
  split
  · next hholds => rw [decide_eq_true hholds]; rfl
  · next hholds => rw [decide_eq_false hholds]; rfl

/-- **Checked arithmetic and compares are exact.**  In every machine and for all operands, a
checked instruction raises an integer overflow if the exact result of the operands, read as signed
numbers of its width, does not fit; otherwise it completes and its destination receives that
result, sign-extended.  A compare writes one if the exact comparison holds and zero otherwise.
Given the wrapped sum or difference of two words, the helper that compiled code asks about overflow
answers one if the instruction of its mode traps, and zero otherwise. -/
theorem arithmetic_exact :
    (∀ (op : CheckedOp) (width : Width),
      (op.instruction width ra rb rc).execute pc m =
          (if width.Fits (op.result width m ra rb) then
            .done (m.writeInt rc (UInt64.ofInt (op.result width m ra rb))) .next
          else .trapped m ⟨.integerOverflow, pc, none⟩) ∧
        (width.Fits (op.result width m ra rb) →
          (UInt64.ofInt (op.result width m ra rb)).toInt64.toInt = op.result width m ra rb)) ∧
    (∀ relation : Comparison,
      (relation.instruction ra rb rc).execute pc m =
        .done (m.writeInt rc
          (if relation.Holds (m.cpu.readInt ra) (m.cpu.readOperand rb) then 1 else 0)) .next) ∧
    ∀ mode : UInt64,
      (overflowAnswer mode (m.cpu.readInt ra) (m.cpu.readOperand rb) = 0 ∨
        overflowAnswer mode (m.cpu.readInt ra) (m.cpu.readOperand rb) = 1) ∧
      (overflowAnswer mode (m.cpu.readInt ra) (m.cpu.readOperand rb) = 1 ↔ ∃ m' trap,
        ((CheckedOp.addSub (modeOp mode)).instruction (modeWidth mode) ra rb rc).execute pc m =
          .trapped m' trap) := by
  refine ⟨fun op width => ⟨execute_checked m ra rc rb pc op width, Width.Fits.toInt_ofInt⟩,
    execute_compare m ra rc rb pc, fun mode => ?_⟩
  have hanswer : overflowAnswer mode (m.cpu.readInt ra) (m.cpu.readOperand rb) =
      if (modeWidth mode).Fits
        ((CheckedOp.addSub (modeOp mode)).result (modeWidth mode) m ra rb) then 0 else 1 :=
    overflowAnswer_eq_ite mode _ _
  rw [hanswer, execute_checked]
  split
  · exact ⟨.inl rfl, nofun, fun ⟨_, _, htrap⟩ => nomatch htrap⟩
  · exact ⟨.inr rfl, fun _ => ⟨m, _, rfl⟩, fun _ => rfl⟩

end Instruction

end AlphaMachine
