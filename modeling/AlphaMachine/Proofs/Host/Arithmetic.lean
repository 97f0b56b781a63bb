import AlphaMachine.Block.Lowering
import AlphaMachine.Proofs.Host.Meaning
import Mathlib.Algebra.Group.Int.Defs
import Mathlib.Algebra.Group.Nat.Defs
import Mathlib.Data.List.Basic

/-!
# Arithmetic of compiled code

The values that host instructions leave in a register, against the values of the guest operations
they stand for.

* `Width.extend_sized`, `Width.extend_product` : sums, differences and products, where a longword
  result only agrees in its low half and is sign-extended afterwards;
* `ShiftOp.sized_shiftCl` : shifts, whose count the host masks itself;
* `Integer.multiplyChecked_eq` : the overflow flag of a product decides whether a checked product
  has a value;
* `Host.topBits_eq_compareBytes` : the bytewise compare by a maximum and an equality.
-/

namespace AlphaMachine

open Host

/-! ### Signed words -/

theorem toNat_toUInt64_eq_emod (x : Int64) : (x.toUInt64.toNat : Int) = x.toInt % 2 ^ 64 := by
  have h : x.toInt = if 2 * x.toUInt64.toNat < 2 ^ 64 then (x.toUInt64.toNat : Int)
      else x.toUInt64.toNat - 2 ^ 64 := BitVec.toInt_eq_toNat_cond x.toBitVec
  have hlt := x.toUInt64.toNat_lt
  split at h <;> omega

theorem ofInt_toInt64 (x : Int64) : UInt64.ofInt x.toInt = x.toUInt64 := by
  have hx := toNat_toUInt64_eq_emod x
  rw [← UInt64.toNat_inj, UInt64.ofInt, UInt64.toNat_ofNat']
  omega

/-! ### Sums, differences and products -/

/-- A longword result only has to agree in its low half. -/
theorem signExtendLong_toUInt64 {x : UInt32} {y : UInt64} (h : x = y.toUInt32) :
    signExtendLong x.toUInt64 = signExtendLong y := by
  rw [signExtendLong, signExtendLong, UInt32.toUInt32_toUInt64, h]

theorem Width.extend_sized (width : Width) (op : AddSub) (a b : UInt64) :
    width.extend (op.aluOp.sized width.opSize a b) = width.extend (op.apply a b) := by
  cases width with
  | quad => cases op <;> rfl
  | long =>
    cases op with
    | add => exact signExtendLong_toUInt64 (UInt64.toUInt32_add a b).symm
    | sub => exact signExtendLong_toUInt64 (UInt64.toUInt32_sub a b).symm

theorem Width.extend_product (width : Width) (a b : UInt64) :
    width.extend (width.opSize.product a b) = width.extend (a * b) := by
  cases width with
  | quad => rfl
  | long => exact signExtendLong_toUInt64 (UInt64.toUInt32_mul a b).symm

theorem Width.ofInt_toInt (width : Width) (value : UInt64) :
    UInt64.ofInt (width.toInt value) = width.extend value := by
  cases width with
  | quad => exact ofInt_toInt64 value.toInt64
  | long =>
    have hlong := ofInt_toInt64 value.toUInt32.toInt32.toInt64
    rw [Int32.toInt_toInt64] at hlong
    exact hlong

theorem Width.toInt_product {width : Width} {a b : UInt64}
    (h : width.opSize.productOverflows a b = false) :
    width.toInt (width.opSize.product a b) = width.toInt a * width.toInt b := by
  cases width with
  | quad => exact BitVec.toInt_mul_of_not_smulOverflow (Bool.eq_false_iff.1 h)
  | long =>
    change (a.toUInt32 * b.toUInt32).toUInt64.toUInt32.toInt32.toInt = _
    rw [UInt32.toUInt32_toUInt64]
    exact BitVec.toInt_mul_of_not_smulOverflow (Bool.eq_false_iff.1 h)

theorem Width.productOverflows_eq_false_iff (width : Width) (a b : UInt64) :
    width.opSize.productOverflows a b = false ↔
      -((1 <<< (width.bits - 1) : Nat) : Int) ≤ width.toInt a * width.toInt b ∧
        width.toInt a * width.toInt b < (1 <<< (width.bits - 1) : Nat) := by
  have hrange {w : Nat} (x y : BitVec w) : x.smulOverflow y = false ↔
      -((1 <<< (w - 1) : Nat) : Int) ≤ x.toInt * y.toInt ∧
        x.toInt * y.toInt < (1 <<< (w - 1) : Nat) := by
    rw [Nat.one_shiftLeft, Int.natCast_pow]
    simp only [BitVec.smulOverflow, Bool.or_eq_false_iff, decide_eq_false_iff_not, Int.not_lt,
      ge_iff_le, Int.not_le]
    exact and_comm
  cases width with
  | quad => exact hrange a.toBitVec b.toBitVec
  | long => exact hrange a.toUInt32.toBitVec b.toUInt32.toBitVec

/-- The host's overflow flag decides whether a checked product has a value. -/
theorem Integer.multiplyChecked_eq (width : Width) (a b : UInt64) :
    multiplyChecked width a b =
      if width.opSize.productOverflows a b then none
      else some (width.extend (width.opSize.product a b)) := by
  have hrange := width.productOverflows_eq_false_iff a b
  unfold multiplyChecked
  dsimp only
  cases h : width.opSize.productOverflows a b with
  | true =>
    rw [if_neg (mt hrange.2 (by simp [h])), if_pos rfl]
  | false =>
    rw [if_pos (hrange.1 h), if_neg Bool.false_ne_true, ← width.ofInt_toInt,
      Width.toInt_product h]

/-! ### Shifts and bitwise operations -/

theorem and_63 (n : Nat) : n &&& 63 = n % 64 := Nat.and_two_pow_sub_one_eq_mod n 6

theorem OpSize.toNat_shiftCount (count : UInt8) :
    (OpSize.shiftCount .qword count).toUInt64.toNat = count.toNat % 64 := by
  rw [OpSize.shiftCount, UInt8.toNat_toUInt64, UInt8.toNat_and]
  exact and_63 _

theorem ShiftOp.sized_scale (a : UInt64) (scale : Nat) :
    ShiftOp.shl.sized .qword a (OpSize.shiftCount .qword scale.toUInt8) = a <<< scale.toUInt64 := by
  have hcount : scale % 256 % 64 % 64 = scale % 2 ^ 64 % 64 := by omega
  rw [← UInt64.toNat_inj, ShiftOp.sized, UInt64.toNat_shiftLeft, UInt64.toNat_shiftLeft,
    OpSize.toNat_shiftCount]
  change a.toNat <<< (scale % 256 % 64 % 64) % 2 ^ 64 = a.toNat <<< (scale % 2 ^ 64 % 64) % 2 ^ 64
  rw [hcount]

theorem ShiftOp.sized_shiftCl (direction : Shift) (a b : UInt64) :
    direction.shiftOp.sized .qword a (OpSize.shiftCount .qword b.toUInt8) =
      Integer.shift direction a b := by
  have hcount : (OpSize.shiftCount .qword b.toUInt8).toUInt64 = b &&& 63 := by
    rw [← UInt64.toNat_inj, OpSize.toNat_shiftCount, UInt64.toNat_toUInt8, UInt64.toNat_and]
    change _ = b.toNat &&& 63
    rw [and_63]
    omega
  cases direction <;> simp only [ShiftOp.sized, Shift.shiftOp, Integer.shift, hcount]

theorem AluOp.sized_logic (op : Logic) (a b : UInt64) :
    op.aluOp.sized .qword a b = Integer.logic op false a b := by
  cases op <;> rfl

theorem AluOp.sized_not (b : UInt64) : AluOp.sized .xor .qword b (-1) = ~~~b := by
  rw [← UInt64.toBitVec_inj]
  exact BitVec.xor_allOnes
/-! ### Bytes -/

namespace Bytes

theorem littleEndian_lt (l : List UInt8) : littleEndian l < 256 ^ l.length := by
  induction l with
  | nil => decide
  | cons b rest ih =>
    have hb := b.toNat_lt
    rw [littleEndian, List.length_cons, Nat.pow_succ]
    omega

theorem littleEndian_div (l : List UInt8) (i : Nat) :
    littleEndian l / 256 ^ i % 256 = (l.getD i 0).toNat := by
  induction l generalizing i with
  | nil => simp [littleEndian]
  | cons b rest ih =>
    have hb := b.toNat_lt
    cases i with
    | zero =>
      rw [littleEndian, Nat.pow_zero, Nat.div_one, List.getD_cons_zero]
      omega
    | succ i =>
      have hdiv : (b.toNat + 256 * littleEndian rest) / 256 = littleEndian rest := by omega
      rw [littleEndian, Nat.pow_succ, Nat.mul_comm (256 ^ i), ← Nat.div_div_eq_div_mul, hdiv, ih,
        List.getD_cons_succ]

end Bytes

theorem Integer.toNat_byteAt (value : UInt64) {i : Nat} (hi : i < 8) :
    (byteAt value i).toNat = value.toNat / 256 ^ i % 256 := by
  have hpow : 256 ^ i = 2 ^ (8 * i) := by rw [Nat.pow_mul]
  have hcount : (8 * i).toUInt64.toNat % 64 = 8 * i := by
    change 8 * i % 2 ^ 64 % 64 = 8 * i
    omega
  rw [byteAt, UInt64.toNat_toUInt8, UInt64.toNat_shiftRight, hcount, Nat.shiftRight_eq_div_pow,
    hpow]

theorem Host.byteAt_zipBytes (f : UInt8 → UInt8 → UInt8) (a b : UInt64) {i : Nat} (hi : i < 8) :
    Integer.byteAt (zipBytes f a b) i = f (Integer.byteAt a i) (Integer.byteAt b i) := by
  have hlt : Bytes.littleEndian
      ((List.range 8).map fun i => f (Integer.byteAt a i) (Integer.byteAt b i)) < 2 ^ 64 :=
    Nat.lt_of_lt_of_le (Bytes.littleEndian_lt _) (by simp)
  rw [← UInt8.toNat_inj, Integer.toNat_byteAt _ hi, zipBytes, UInt64.toNat_ofNat',
    Nat.mod_eq_of_lt hlt, Bytes.littleEndian_div]
  simp [List.getD, hi]

theorem Host.topBits_lt (a : UInt64) : (topBits a).toNat < 256 := by
  have hbit : ∀ i ∈ List.range 8, (1 <<< i.toUInt64 : UInt64).toNat < 256 := by decide
  refine List.foldlRecOn (List.range 8) _ (motive := fun mask : UInt64 => mask.toNat < 256)
    (by decide) ?_
  intro mask hmask i hi
  split
  · rw [UInt64.toNat_or]
    exact Nat.or_lt_two_pow (n := 8) hmask (hbit i hi)
  · exact hmask

theorem Host.and_byte (a b : UInt64) :
    AluOp.sized .and .dword (topBits a ||| b <<< 8) (immediate 0xFF) = topBits a := by
  have htop := topBits_lt a
  have hshift : (b <<< 8).toNat % 2 ^ 8 = 0 := by
    rw [UInt64.toNat_shiftLeft, Nat.shiftLeft_eq]
    change b.toNat * 2 ^ 8 % 2 ^ 64 % 2 ^ 8 = 0
    omega
  rw [← UInt64.toNat_inj]
  change ((topBits a ||| b <<< 8).toUInt32 &&& 255).toUInt64.toNat = _
  rw [UInt32.toNat_toUInt64, UInt32.toNat_and]
  change (topBits a ||| b <<< 8).toUInt32.toNat &&& 2 ^ 8 - 1 = _
  rw [Nat.and_two_pow_sub_one_eq_mod, UInt64.toNat_toUInt32, UInt64.toNat_or,
    Nat.mod_mod_of_dvd _ (by decide), Nat.or_mod_two_pow, hshift, Nat.or_zero]
  exact Nat.mod_eq_of_lt htop

theorem Host.max_eq_right_iff (x y : UInt8) : max x y = y ↔ x ≤ y := by
  change (if x ≤ y then y else x) = y ↔ x ≤ y
  by_cases h : x ≤ y
  · simp only [h, if_true]
  · have hne : x ≠ y := by
      rintro rfl
      exact h UInt8.le_rfl
    simp only [h, hne, if_false]

/-- **The bytewise compare.**  A byte is at least another one when it is their maximum. -/
theorem Host.topBits_eq_compareBytes (a b : UInt64) :
    topBits (zipBytes (fun x y => if x = y then 0xFF else 0) (zipBytes max b a) a) =
      Integer.compareBytes a b := by
  refine List.foldl_ext _ _ _ fun mask i hi => ?_
  have hi8 : i < 8 := List.mem_range.1 hi
  rw [byteAt_zipBytes _ _ _ hi8, byteAt_zipBytes _ _ _ hi8]
  simp only [max_eq_right_iff]
  by_cases h : Integer.byteAt b i ≤ Integer.byteAt a i
  · simp only [h, if_true]
    rfl
  · simp only [h, if_false]
    rfl

end AlphaMachine
