import AlphaMachine.Float.Image
import Mathlib.Data.Nat.Bitwise

/-!
# Narrow formats in register images

An S-format number and a longword have 32 bits, which a register image spreads over 64.  Here the
images and the 32-bit forms are written as numbers, field by field, so that what one direction does
with the fields can be compared with the other by arithmetic.

* `FloatImage.toSingle_ofSingle` : an S-format number survives, whatever it is, a denormal, an
  infinity and every payload of a NaN included;
* `FloatImage.ofSingle_toSingle_iff` : the images that survive the other way are those with an
  exponent and a fraction of S format, and every one of them comes from an S-format number;
* `FloatImage.toSingle_ofLong` : the low longword of a quadword survives.
-/

namespace AlphaMachine

namespace FloatImage

/-! ### Fields as numbers -/

/-- A stretch of bits, in place. -/
theorem and_shiftLeft_ones (n k width : Nat) :
    n &&& (2 ^ width - 1) <<< k = 2 ^ k * (n / 2 ^ k % 2 ^ width) := by
  rw [← Nat.and_two_pow_sub_one_eq_mod, Nat.mul_comm, ← Nat.shiftLeft_eq, Nat.shiftLeft_and_distrib,
    ← Nat.shiftRight_eq_div_pow]
  refine Nat.eq_of_testBit_eq fun i => ?_
  simp only [Nat.testBit_and, Nat.testBit_shiftLeft, Nat.testBit_shiftRight]
  by_cases h : k ≤ i
  · simp [h]
  · simp [h]

theorem toNat_and_upperMask (n : UInt64) :
    (n &&& upperMask).toNat = 2 ^ 30 * (n.toNat / 2 ^ 30 % 2 ^ 2) := by
  rw [UInt64.toNat_and]
  exact and_shiftLeft_ones n.toNat 30 2

theorem toNat_and_lowerMask (n : UInt64) : (n &&& lowerMask).toNat = n.toNat % 2 ^ 30 := by
  rw [UInt64.toNat_and]
  exact Nat.and_two_pow_sub_one_eq_mod n.toNat 30

/-- A shift by a constant as a product. -/
theorem toNat_shiftLeft (n : UInt64) (k : Nat) (hk : k < 64) :
    (n <<< UInt64.ofNat k).toNat = 2 ^ k * n.toNat % 2 ^ 64 := by
  have hcount : (UInt64.ofNat k).toNat % 64 = k := by
    rw [UInt64.toNat_ofNat']
    omega
  rw [UInt64.toNat_shiftLeft, hcount, Nat.shiftLeft_eq, Nat.mul_comm]

/-- A shift by a constant as a quotient. -/
theorem toNat_shiftRight (n : UInt64) (k : Nat) (hk : k < 64) :
    (n >>> UInt64.ofNat k).toNat = n.toNat / 2 ^ k := by
  have hcount : (UInt64.ofNat k).toNat % 64 = k := by
    rw [UInt64.toNat_ofNat']
    omega
  rw [UInt64.toNat_shiftRight, hcount, Nat.shiftRight_eq_div_pow]

/-- The 32-bit form of an image: its upper two bits and thirty bits further down. -/
theorem toNat_toSingle (t : UInt64) :
    (toSingle t).toNat = 2 ^ 30 * (t.toNat / 2 ^ 62) + t.toNat / 2 ^ 29 % 2 ^ 30 := by
  have hlt := t.toNat_lt
  have hupper : (t >>> 32 &&& upperMask).toNat = 2 ^ 30 * (t.toNat / 2 ^ 62) := by
    have hshift : (t >>> 32).toNat = t.toNat / 2 ^ 32 := toNat_shiftRight t 32 (by decide)
    rw [toNat_and_upperMask, hshift]
    omega
  have hlower : (t >>> 29 &&& lowerMask).toNat = t.toNat / 2 ^ 29 % 2 ^ 30 := by
    have hshift : (t >>> 29).toNat = t.toNat / 2 ^ 29 := toNat_shiftRight t 29 (by decide)
    rw [toNat_and_lowerMask, hshift]
  rw [toSingle, UInt64.toNat_toUInt32, UInt64.toNat_or, hupper, hlower,
    ← Nat.two_pow_add_eq_or_of_lt (Nat.mod_lt _ (by decide))]
  omega

/-- The image of a longword: its upper two bits and, after a gap of three bits, the others. -/
theorem toNat_ofLong (q : UInt64) :
    (ofLong q).toNat = 2 ^ 62 * (q.toNat / 2 ^ 30 % 2 ^ 2) + 2 ^ 29 * (q.toNat % 2 ^ 30) := by
  have hupper : ((q &&& upperMask) <<< 32).toNat = 2 ^ 62 * (q.toNat / 2 ^ 30 % 2 ^ 2) := by
    refine (toNat_shiftLeft (q &&& upperMask) 32 (by decide)).trans ?_
    rw [toNat_and_upperMask]
    omega
  have hlower : ((q &&& lowerMask) <<< 29).toNat = 2 ^ 29 * (q.toNat % 2 ^ 30) := by
    refine (toNat_shiftLeft (q &&& lowerMask) 29 (by decide)).trans ?_
    rw [toNat_and_lowerMask]
    omega
  rw [ofLong, UInt64.toNat_or, hupper, hlower, ← Nat.two_pow_add_eq_or_of_lt (by omega)]

/-! ### Exponents -/

/-- The T exponent of an S exponent. -/
def widened (e : Nat) : Nat := if e = 0 then 0 else if e = 0xFF then 0x7FF else e + 0x380

theorem toNat_widenExponent {e : UInt64} (h : e.toNat < 2 ^ 8) :
    (widenExponent e).toNat = widened e.toNat := by
  have hzero : e = 0 ↔ e.toNat = 0 := UInt64.toNat_inj.symm
  have hmax : e = 0xFF ↔ e.toNat = 0xFF := UInt64.toNat_inj.symm
  have hsum : (e + 0x380).toNat = e.toNat + 0x380 := by
    rw [UInt64.toNat_add]
    exact Nat.mod_eq_of_lt (Nat.lt_trans (Nat.add_lt_add_right h 0x380) (by decide))
  simp only [widenExponent, widened, hzero, hmax, apply_ite UInt64.toNat, hsum]
  rfl

theorem widened_lt {e : Nat} (h : e < 2 ^ 8) : widened e < 2 ^ 11 := by
  unfold widened
  split_ifs <;> omega

/-- The exponent and the fraction of an S-format number. -/
theorem toNat_singleFields (s : UInt32) :
    (s.toUInt64 >>> 23 &&& 0xFF).toNat = s.toNat / 2 ^ 23 % 2 ^ 8 ∧
      (s.toUInt64 &&& 0x7FFFFF).toNat = s.toNat % 2 ^ 23 := by
  have hshift : (s.toUInt64 >>> 23).toNat = s.toNat / 2 ^ 23 :=
    toNat_shiftRight s.toUInt64 23 (by decide)
  constructor
  · rw [UInt64.toNat_and, hshift]
    exact Nat.and_two_pow_sub_one_eq_mod _ 8
  · rw [UInt64.toNat_and]
    exact Nat.and_two_pow_sub_one_eq_mod s.toNat 23

/-- The image of an S-format number: its sign, its exponent widened, and its fraction. -/
theorem toNat_ofSingle (s : UInt32) :
    (ofSingle s).toNat =
      2 ^ 52 * (2 ^ 11 * (s.toNat / 2 ^ 31) + widened (s.toNat / 2 ^ 23 % 2 ^ 8)) +
        2 ^ 29 * (s.toNat % 2 ^ 23) := by
  have hlt := s.toNat_lt
  obtain ⟨hexponent, hmask⟩ := toNat_singleFields s
  have hbound := Nat.mod_lt (s.toNat / 2 ^ 23) (Nat.two_pow_pos 8)
  have hwidened := widened_lt hbound
  have hsign : ((s.toUInt64 >>> 31) <<< 63).toNat = 2 ^ 63 * (s.toNat / 2 ^ 31) := by
    have hshift : (s.toUInt64 >>> 31).toNat = s.toNat / 2 ^ 31 :=
      toNat_shiftRight s.toUInt64 31 (by decide)
    refine (toNat_shiftLeft (s.toUInt64 >>> 31) 63 (by decide)).trans ?_
    rw [hshift]
    omega
  have hmiddle : (widenExponent (s.toUInt64 >>> 23 &&& 0xFF) <<< 52).toNat =
      2 ^ 52 * widened (s.toNat / 2 ^ 23 % 2 ^ 8) := by
    refine (toNat_shiftLeft (widenExponent (s.toUInt64 >>> 23 &&& 0xFF)) 52 (by decide)).trans ?_
    rw [toNat_widenExponent (by rw [hexponent]; exact hbound), hexponent]
    omega
  have hfraction : ((s.toUInt64 &&& 0x7FFFFF) <<< 29).toNat = 2 ^ 29 * (s.toNat % 2 ^ 23) := by
    refine (toNat_shiftLeft (s.toUInt64 &&& 0x7FFFFF) 29 (by decide)).trans ?_
    rw [hmask]
    omega
  -- The three fields do not overlap.
  have hupper : 2 ^ 63 * (s.toNat / 2 ^ 31) ||| 2 ^ 52 * widened (s.toNat / 2 ^ 23 % 2 ^ 8) =
      2 ^ 52 * (2 ^ 11 * (s.toNat / 2 ^ 31) + widened (s.toNat / 2 ^ 23 % 2 ^ 8)) := by
    rw [← Nat.two_pow_add_eq_or_of_lt (by omega)]
    omega
  unfold ofSingle
  dsimp only
  rw [UInt64.toNat_or, UInt64.toNat_or, hsign, hmiddle, hfraction, hupper,
    ← Nat.two_pow_add_eq_or_of_lt (by omega)]

/-! ### The way through a register -/

/-- The 32-bit form of an image in the fields of S format. -/
theorem toSingle_fields (t : UInt64) :
    (toSingle t).toNat / 2 ^ 31 = t.toNat / 2 ^ 63 ∧
      (toSingle t).toNat / 2 ^ 23 % 2 ^ 8 =
        2 ^ 7 * (t.toNat / 2 ^ 62 % 2) + t.toNat / 2 ^ 52 % 2 ^ 7 ∧
      (toSingle t).toNat % 2 ^ 23 = t.toNat / 2 ^ 29 % 2 ^ 23 := by
  rw [toNat_toSingle]
  omega

/-- **An S-format number survives a register.** -/
theorem toSingle_ofSingle (s : UInt32) : toSingle (ofSingle s) = s := by
  have hlt := s.toNat_lt
  rw [← UInt32.toNat_inj, toNat_toSingle, toNat_ofSingle]
  unfold widened
  split_ifs <;> omega

/-- The image has an exponent and a fraction that an S-format number can have. -/
def HasSingleForm (t : UInt64) : Prop :=
  (exponent t = 0 ∨ exponent t = 0x7FF ∨ 0x380 < exponent t ∧ exponent t < 0x380 + 0xFF) ∧
    2 ^ 29 ∣ fraction t

theorem exponent_eq (t : UInt64) : exponent t = t.toNat / 2 ^ 52 % 2 ^ 11 := by
  rw [exponent, Nat.shiftRight_eq_div_pow]
  rfl

theorem fraction_eq (t : UInt64) : fraction t = t.toNat % 2 ^ 52 := rfl

/-- The images that survive the way to memory are those of S format. -/
theorem ofSingle_toSingle_iff (t : UInt64) : ofSingle (toSingle t) = t ↔ HasSingleForm t := by
  have hlt := t.toNat_lt
  obtain ⟨hsign, hexponent, hfraction⟩ := toSingle_fields t
  rw [← UInt64.toNat_inj, toNat_ofSingle, hsign, hexponent, hfraction, HasSingleForm, exponent_eq,
    fraction_eq]
  unfold widened
  split_ifs <;> omega

/-- Every image of S format comes from an S-format number, and no other image does. -/
theorem exists_ofSingle_iff (t : UInt64) : (∃ s, ofSingle s = t) ↔ HasSingleForm t := by
  rw [← ofSingle_toSingle_iff]
  constructor
  · rintro ⟨s, rfl⟩
    rw [toSingle_ofSingle]
  · exact fun h => ⟨_, h⟩

/-- **The low longword of a quadword survives a register.** -/
theorem toSingle_ofLong (q : UInt64) : toSingle (ofLong q) = q.toUInt32 := by
  rw [← UInt32.toNat_inj, toNat_toSingle, toNat_ofLong, UInt64.toNat_toUInt32]
  omega

end FloatImage

end AlphaMachine
