import AlphaMachine.Block.Lowering
import AlphaMachine.Exec.Execute
import AlphaMachine.Proofs.Host.Meaning
import Mathlib.Algebra.Group.Nat.Defs

/-!
# Conditions of compiled code

Compiled code decides compares, conditional moves and branches by the host's flags.  In each case
the flags are set by one instruction and read by one condition, and the pair means what the guest
operation means.

* `Comparison.holds?_cond` : integer compares, after a host compare;
* `Condition.holds?_cond` : conditions on an integer register, after a host test;
* `FloatCondition.holds?_cond` : conditions on the image of a floating register, which are decided
  without host arithmetic on floating numbers.
-/

namespace AlphaMachine

/-! ### Sign bits -/

/-- A bit vector shifted down to its last bit is its sign. -/
theorem shiftRight_beq_one {n : Nat} (x : BitVec (n + 1)) : (x >>> n == 1) = x.msb := by
  have hlt := x.isLt
  have hpow : 2 ^ (n + 1) = 2 * 2 ^ n := Nat.pow_succ'
  have hshift : (x >>> n).toNat = x.toNat / 2 ^ n := by
    rw [BitVec.toNat_ushiftRight, Nat.shiftRight_eq_div_pow]
  have hval : (1 : BitVec (n + 1)).toNat = 1 := Nat.mod_eq_of_lt (Nat.one_lt_two_pow (by omega))
  have hone : x >>> n = 1 ↔ 2 ^ n ≤ x.toNat := by
    rw [← BitVec.toNat_inj, hshift, hval, Nat.div_eq_iff (Nat.two_pow_pos n)]
    omega
  rw [BitVec.msb_eq_decide, Bool.eq_iff_iff, beq_iff_eq, decide_eq_true_iff]
  exact hone

/-- The sign bit of a quadword. -/
theorem sign_eq_msb (a : UInt64) : (a >>> 63 == 1) = a.toBitVec.msb := by
  have hword : (a >>> 63 == 1) = (a.toBitVec >>> 63 == 1) := by
    rw [Bool.eq_iff_iff, beq_iff_eq, beq_iff_eq, ← UInt64.toBitVec_inj]
    rfl
  exact hword.trans (shiftRight_beq_one a.toBitVec)

/-- The sign bit of a longword. -/
theorem longSign_eq_msb (a : UInt32) : (a >>> 31 == 1) = a.toBitVec.msb := by
  have hword : (a >>> 31 == 1) = (a.toBitVec >>> 31 == 1) := by
    rw [Bool.eq_iff_iff, beq_iff_eq, beq_iff_eq, ← UInt32.toBitVec_inj]
    rfl
  exact hword.trans (shiftRight_beq_one a.toBitVec)

/-- The signs of two bit vectors and of their difference say when the difference does not fit. -/
theorem ConditionCodes.signOverflow_sub {n : Nat} (x y : BitVec n) :
    signOverflow x.msb y.msb (x - y).msb true = x.ssubOverflow y := by
  rw [BitVec.ssubOverflow_eq]
  cases x.msb <;> cases y.msb <;> cases (x - y).msb <;> rfl

theorem msb_eq_toInt64 (a : UInt64) : a.toBitVec.msb = decide (a.toInt64 < 0) := by
  rw [← BitVec.slt_zero_eq_msb, Bool.eq_iff_iff, decide_eq_true_iff]
  exact Iff.rfl

/-! ### Compares -/

namespace Host

theorem sub_beq_zero {w : Nat} (a b : BitVec w) : (a - b == 0) = (a == b) := by
  have hiff : a - b = 0#w ↔ a = b := by
    constructor
    · intro h
      rw [← BitVec.sub_add_cancel a b, h, BitVec.zero_add]
    · rintro rfl
      exact BitVec.sub_self a
  rw [Bool.eq_iff_iff, beq_iff_eq, beq_iff_eq]
  exact hiff

theorem toBitVec_sub_beq_zero (a b : UInt64) :
    (a.toBitVec - b.toBitVec == 0) = (a - b == 0) := by
  rw [Bool.eq_iff_iff, beq_iff_eq, beq_iff_eq, ← UInt64.toBitVec_inj]
  rfl

theorem holds?_e_cmp {w : Nat} (a b : BitVec w) (old : Flags) :
    Cond.e.holds? (AluOp.flags .cmp a b old) = some (a == b) :=
  congrArg some (sub_beq_zero a b)

theorem holds?_ne_cmp {w : Nat} (a b : BitVec w) (old : Flags) :
    Cond.ne.holds? (AluOp.flags .cmp a b old) = some (a != b) :=
  congrArg (Option.map not) (holds?_e_cmp a b old)

end Host

open Host

/-- **A host compare decides the guest's compare.** -/
theorem Comparison.holds?_cond (relation : Comparison) (a b : UInt64) (old : Flags) :
    relation.cond.holds? (AluOp.sizedFlags .cmp .qword a b old) =
      some (Integer.compare relation a b) := by
  have hzero := toBitVec_sub_beq_zero a b
  have hless : ((a.toBitVec - b.toBitVec).msb != a.toBitVec.ssubOverflow b.toBitVec) =
      (ConditionCodes.quad (a - b) a b true).less := by
    rw [← ConditionCodes.signOverflow_sub]
    simp only [ConditionCodes.less, ConditionCodes.quad, sign_eq_msb]
    rfl
  cases relation with
  | eq =>
    refine (holds?_e_cmp a.toBitVec b.toBitVec old).trans (congrArg some ?_)
    rw [Bool.eq_iff_iff, beq_iff_eq, UInt64.toBitVec_inj]
    exact beq_iff_eq.symm
  | lt => exact congrArg some hless
  | le =>
    refine congrArg some ?_
    rw [hzero, hless, Bool.or_comm]
    rfl
  | ult => rfl
  | ule =>
    refine congrArg some ?_
    rw [hzero]
    rfl

/-! ### Conditions on integer registers -/

/-- The flags that the test of a condition sets. -/
def Condition.testFlags (condition : Condition) (a : UInt64) (old : Flags) : Flags :=
  match condition with
  | .lowSet | .lowClear => AluOp.sizedFlags .test .dword a (immediate 1) old
  | _ => AluOp.sizedFlags .test .qword a a old

theorem Condition.step_test (env : Environment) (condition : Condition) (reg : Gpr) (s : State) :
    (condition.test reg).step env s =
      some { s with flags := condition.testFlags (s.gpr reg) s.flags } := by
  cases condition <;> rfl

theorem holds?_e_low (a : UInt64) (old : Flags) :
    Cond.e.holds? (AluOp.sizedFlags .test .dword a (immediate 1) old) =
      some (a.toNat % 2 == 0) := by
  refine congrArg some ?_
  rw [Bool.eq_iff_iff, beq_iff_eq, beq_iff_eq, ← BitVec.toNat_inj]
  change (a.toUInt32.toBitVec &&& 1#32).toNat = 0 ↔ _
  rw [BitVec.toNat_and]
  change a.toUInt32.toNat &&& 1 = 0 ↔ _
  rw [Nat.and_one_is_mod, UInt64.toNat_toUInt32]
  omega

theorem toNat_and_one (a : UInt64) : (a &&& 1).toNat = a.toNat % 2 := by
  rw [UInt64.toNat_and]
  exact Nat.and_one_is_mod _

theorem toInt64_eq_zero_iff (a : UInt64) : a.toInt64 = 0 ↔ a = 0 := by
  rw [← Int64.toBitVec_inj, ← UInt64.toBitVec_inj]
  exact Iff.rfl

/-- The flags of a register tested with itself. -/
theorem sizedFlags_test_self (a : UInt64) (old : Flags) :
    AluOp.sizedFlags .test .qword a a old =
      ⟨some (a == 0), some (decide (a.toInt64 < 0)), some false, some false⟩ := by
  have hvalue : AluOp.value .test a.toBitVec a.toBitVec = a.toBitVec := BitVec.and_self
  have hzero : (a.toBitVec == 0) = (a == 0) := by
    rw [Bool.eq_iff_iff, beq_iff_eq, beq_iff_eq, ← UInt64.toBitVec_inj]
    rfl
  simp only [AluOp.sizedFlags, AluOp.flags, Flags.ofResult, hvalue, hzero, msb_eq_toInt64]

/-- **A host test decides the guest's condition.** -/
theorem Condition.holds?_cond (condition : Condition) (a : UInt64) (old : Flags) :
    condition.cond.holds? (condition.testFlags a old) = some (condition.holds a) := by
  have htest := sizedFlags_test_self a old
  have hlow := toNat_and_one a
  have hge : decide (0 ≤ a.toInt64) = !decide (a.toInt64 < 0) := by
    rw [← decide_not]
    simp only [Int64.not_lt]
  have hle : decide (a.toInt64 ≤ 0) = (a == 0 || decide (a.toInt64 < 0)) := by
    rw [Bool.eq_iff_iff]
    simp only [decide_eq_true_eq, Bool.or_eq_true, beq_iff_eq, Int64.le_iff_lt_or_eq,
      toInt64_eq_zero_iff, or_comm]
  have hgt : decide (0 < a.toInt64) = !(a == 0 || decide (a.toInt64 < 0)) := by
    rw [← hle, ← decide_not]
    simp only [Int64.not_le]
  cases condition with
  | eq | ne | lt => simp [testFlags, htest, cond, Cond.holds?, Flags.less?, holds, bne]
  | ge => simp [testFlags, htest, cond, Cond.holds?, Flags.less?, holds, hge]
  | le => simp [testFlags, htest, cond, Cond.holds?, Flags.less?, holds, hle]
  | gt => simp [testFlags, htest, cond, Cond.holds?, Flags.less?, holds, hgt]
  | lowSet =>
    refine (congrArg (Option.map not) (holds?_e_low a old)).trans (congrArg some ?_)
    rw [Bool.eq_iff_iff]
    simp only [holds, Bool.not_eq_true', beq_eq_false_iff_ne, beq_iff_eq, ← UInt64.toNat_inj, hlow]
    change _ ↔ a.toNat % 2 = 1
    omega
  | lowClear =>
    refine (holds?_e_low a old).trans (congrArg some ?_)
    rw [Bool.eq_iff_iff]
    simp only [holds, beq_iff_eq, ← UInt64.toNat_inj, hlow]
    rfl

/-! ### Conditions on images -/

namespace FloatImage

theorem isNegative_eq (image : UInt64) : isNegative image = decide (2 ^ 63 ≤ image.toNat) := by
  rw [isNegative, sign_eq_msb, BitVec.msb_eq_decide]
  rfl

theorem isZero_eq (image : UInt64) :
    isZero image = decide (image.toNat = 0 ∨ image.toNat = 2 ^ 63) := by
  have hlt := image.toNat_lt
  have hshift : (image <<< 1).toNat = image.toNat * 2 % 2 ^ 64 := by
    rw [UInt64.toNat_shiftLeft]
    exact congrArg (· % 2 ^ 64) (Nat.shiftLeft_eq _ _)
  rw [isZero, Bool.eq_iff_iff, beq_iff_eq, decide_eq_true_iff, ← UInt64.toNat_inj, hshift]
  change _ = 0 ↔ _
  omega

end FloatImage

/-- The flags that the test of an image sets. -/
def FloatCondition.testFlags (condition : FloatCondition) (image : UInt64) (old : Flags) : Flags :=
  match condition with
  | .eq | .ne => OpSize.resultFlags .qword (image <<< 1)
  | .gt | .le => AluOp.sizedFlags .test .qword image image old
  | .lt | .ge => AluOp.sizedFlags .cmp .qword image FloatImage.sign old

/-- **Host tests of an image as an integer decide the guest's condition.** -/
theorem FloatCondition.holds?_cond (condition : FloatCondition) (image : UInt64) (old : Flags) :
    condition.cond.holds? (condition.testFlags image old) = some (condition.holds image) := by
  have hlt := image.toNat_lt
  have hshift : ((image <<< 1).toBitVec == 0) = FloatImage.isZero image := by
    rw [FloatImage.isZero, Bool.eq_iff_iff, beq_iff_eq, beq_iff_eq, ← UInt64.toBitVec_inj]
    rfl
  have hneg : decide (image.toInt64 < 0) = FloatImage.isNegative image := by
    rw [← msb_eq_toInt64, FloatImage.isNegative, sign_eq_msb]
  have hle : (image == 0 || (FloatImage.isNegative image != false)) =
      (FloatImage.isNegative image || FloatImage.isZero image) := by
    rw [Bool.bne_false, Bool.eq_iff_iff]
    simp only [FloatImage.isNegative_eq, FloatImage.isZero_eq, Bool.or_eq_true, beq_iff_eq,
      decide_eq_true_eq, ← UInt64.toNat_inj]
    change image.toNat = 0 ∨ _ ↔ _
    omega
  have hbe : Cond.be.holds? (AluOp.sizedFlags .cmp .qword image FloatImage.sign old) =
      some (!FloatImage.isNegative image || FloatImage.isZero image) := by
    refine congrArg some ?_
    rw [sub_beq_zero, Bool.eq_iff_iff, FloatImage.isNegative_eq, FloatImage.isZero_eq]
    simp only [BitVec.usubOverflow, Bool.or_eq_true, Bool.not_eq_true', decide_eq_true_eq,
      decide_eq_false_iff_not, beq_iff_eq, ← BitVec.toNat_inj]
    change image.toNat < 2 ^ 63 ∨ image.toNat = 2 ^ 63 ↔ _
    omega
  cases condition with
  | eq => exact congrArg some hshift
  | ne => exact congrArg (fun z => some (!z)) hshift
  | gt =>
    simp only [testFlags, sizedFlags_test_self, hneg, cond]
    exact congrArg some ((congrArg not hle).trans (Bool.not_or ..))
  | le =>
    simp only [testFlags, sizedFlags_test_self, hneg, cond]
    exact congrArg some hle
  | lt =>
    refine (congrArg (Option.map not) hbe).trans (congrArg some ?_)
    simp [holds]
  | ge => exact hbe

end AlphaMachine
