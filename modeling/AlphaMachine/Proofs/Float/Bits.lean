import Mathlib

/-!
# Bits of floating numbers

A floating number is given by its bits, and what is not a number by canonical ones.  So unpacking
bits and packing the result again gives them back (`pack_unpack`), and a number survives the way
through its bits (`Float.ofBits_toBits` and its counterpart for single precision).  Between two
host instructions a number is kept as bits, so this is why arithmetic can be split up.

Bits that are no canonical ones are unpacked as what they are packed as (`unpack_pack_unpack`), and
bits are unpacked as a zero exactly if exponent and fraction are zero (`unpack_eq_zero_iff`).
-/

namespace AlphaMachine

open Float.Model Float.Model.UnpackedFloat

variable {spec : Float.Model.Format}

/-! ### Fields -/

theorem toBitVec_ofBitVec (b : BitVec 1) : (Sign.ofBitVec b).toBitVec = b := by
  rcases BitVec.eq_zero_or_eq_one b with rfl | rfl <;> rfl

/-- The bits are the sign, the exponent and the fraction. -/
theorem packComponents_unpack (b : BitVec spec.numBits) :
    packComponents spec (Sign.ofBitVec (unpackSign b)) (unpackExponent b) (unpackMantissa b) =
      b := by
  have hm := spec.hm
  have he := spec.he
  rw [packComponents, toBitVec_ofBitVec]
  ext i hi
  rw [← BitVec.getLsbD_eq_getElem (x := b) hi]
  simp only [BitVec.getElem_append, unpackSign, unpackExponent, unpackMantissa,
    BitVec.getElem_cast, BitVec.extractLsb, BitVec.getElem_extractLsb']
  by_cases hfraction : i < spec.mantissaBitsWithoutImplicit
  · rw [dif_pos hfraction, Nat.zero_add]
  · rw [dif_neg hfraction]
    by_cases hexponent : i - spec.mantissaBitsWithoutImplicit < spec.exponentBits
    · rw [dif_pos hexponent]
      congr 1
      omega
    · rw [dif_neg hexponent]
      congr 1
      omega

/-! ### Unpacking and packing -/

variable (sign : Sign) (exponent : BitVec spec.exponentBits)
  (fraction : BitVec spec.mantissaBitsWithoutImplicit)

/-- A subnormal number: the fraction has no implicit bit. -/
theorem pack_subnormal (hspec : 2 ≤ spec.exponentBits) (hpos : 0 < fraction.toNat) :
    UnpackedFloat.pack spec (.finite sign fraction.toNat
        ((BitVec.ofNat spec.exponentBits 0).toNat -
          (spec.exponentBias + spec.mantissaBitsWithoutImplicit) + 1) hpos) =
      packComponents spec sign 0 fraction := by
  have hrange : 2 ^ 2 ≤ 2 ^ spec.exponentBits := Nat.pow_le_pow_right (by decide) hspec
  have hlog : fraction.toNat.log2 < spec.mantissaBitsWithoutImplicit :=
    (Nat.log2_lt (Nat.ne_of_gt hpos)).2 fraction.isLt
  have hzero : (BitVec.ofNat spec.exponentBits 0).toNat = 0 := BitVec.toNat_zero
  have hexponent : ((((BitVec.ofNat spec.exponentBits 0).toNat : Int) -
      (spec.exponentBias + spec.mantissaBitsWithoutImplicit) + 1) +
        spec.exponentBias + spec.mantissaBitsWithoutImplicit).toNat = 1 := by omega
  simp only [UnpackedFloat.pack, hexponent, Float.Model.Format.mantissaBits]
  rw [if_neg (by omega), if_neg (by omega), BitVec.ofNat_toNat, BitVec.setWidth_eq]
  rfl

/-- A normal number: the implicit bit is put on and taken off. -/
theorem pack_normal (hinfinite : exponent ≠ -1#_)
    (hpos : 0 < (1#1 ++ fraction).toNat) :
    UnpackedFloat.pack spec (.finite sign (1#1 ++ fraction).toNat
        (exponent.toNat - (spec.exponentBias + spec.mantissaBitsWithoutImplicit)) hpos) =
      packComponents spec sign exponent fraction := by
  have hfraction := fraction.isLt
  have hnat : (1#1 ++ fraction).toNat =
      2 ^ spec.mantissaBitsWithoutImplicit + fraction.toNat := by
    rw [BitVec.toNat_append, ← Nat.shiftLeft_add_eq_or_of_lt hfraction, Nat.shiftLeft_eq]
    exact congrArg (· + fraction.toNat) (Nat.one_mul _)
  have hlog : (1#1 ++ fraction).toNat.log2 = spec.mantissaBitsWithoutImplicit := by
    rw [Nat.log2_eq_iff (Nat.ne_of_gt hpos), Nat.pow_succ]
    omega
  have hmax : exponent.toNat + 1 < 2 ^ spec.exponentBits := by
    have hlt := exponent.isLt
    have hne : exponent.toNat ≠ 2 ^ spec.exponentBits - 1 := by
      rw [← BitVec.toNat_allOnes, ← BitVec.neg_one_eq_allOnes]
      exact fun heq => hinfinite (BitVec.toNat_inj.1 heq)
    omega
  have hexponent : ((exponent.toNat : Int) -
      (spec.exponentBias + spec.mantissaBitsWithoutImplicit) +
        spec.exponentBias + spec.mantissaBitsWithoutImplicit).toNat = exponent.toNat := by omega
  have hlow : BitVec.ofNat spec.mantissaBitsWithoutImplicit (1#1 ++ fraction).toNat = fraction := by
    rw [← BitVec.toNat_inj, BitVec.toNat_ofNat, hnat, Nat.add_mod_left,
      Nat.mod_eq_of_lt hfraction]
  simp only [UnpackedFloat.pack, hexponent, hlog, hlow, Float.Model.Format.mantissaBits]
  rw [if_neg (by omega), if_pos (by omega), BitVec.ofNat_toNat, BitVec.setWidth_eq]

/-- **Packing undoes unpacking.** -/
theorem pack_unpack (hspec : 2 ≤ spec.exponentBits) {b : BitVec spec.numBits}
    (h : spec.Valid b) : UnpackedFloat.pack spec (UnpackedFloat.unpack spec b) = b := by
  have hb := packComponents_unpack b
  simp only [UnpackedFloat.unpack]
  by_cases hinfinite : unpackExponent b = -1#_
  · rw [if_pos hinfinite]
    by_cases hfraction : unpackMantissa b = 0#_
    · rw [hinfinite, hfraction] at hb
      rw [if_pos hfraction]
      exact hb
    · rw [if_neg hfraction]
      exact (h.eq_packedNaN hinfinite hfraction).symm
  · rw [if_neg hinfinite]
    by_cases hzero : unpackExponent b = 0#_
    · rw [hzero] at hb ⊢
      rw [if_pos rfl]
      by_cases hfraction : unpackMantissa b = 0#_
      · rw [hfraction] at hb
        rw [dif_pos hfraction]
        exact hb
      · rw [dif_neg hfraction]
        exact (pack_subnormal _ _ hspec _).trans hb
    · rw [if_neg hzero]
      exact (pack_normal _ _ _ hinfinite _).trans hb

/-- What is packed again is unpacked as before, also if it is not a number. -/
theorem unpack_pack_unpack (b : BitVec Format.binary64.numBits) :
    UnpackedFloat.unpack .binary64
        (UnpackedFloat.pack .binary64 (UnpackedFloat.unpack .binary64 b)) =
      UnpackedFloat.unpack .binary64 b := by
  by_cases hvalid : Format.binary64.Valid b
  · rw [pack_unpack (by decide) hvalid]
  · -- What is not valid is not a number, and neither is its canonical form.
    have hnan : UnpackedFloat.unpack .binary64 b = .notANumber := by
      simp only [UnpackedFloat.unpack]
      by_cases hinfinite : unpackExponent b = -1#_
      · by_cases hfraction : unpackMantissa b = 0#_
        · exact absurd ⟨fun _ h => absurd hfraction h⟩ hvalid
        · rw [if_pos hinfinite, if_neg hfraction]
      · exact absurd ⟨fun h => absurd h hinfinite⟩ hvalid
    rw [hnan]
    rfl

/-! ### Zeros -/

theorem beq_zero_iff {x : UnpackedFloat} {s : Sign} :
    UnpackedFloat.beq x (.zero s) = true ↔ ∃ s', x = .zero s' := by
  cases x with
  | notANumber | zero => simp [UnpackedFloat.beq, UnpackedFloat.compare]
  | infinity s' | finite s' => cases s' <;> simp [UnpackedFloat.beq, UnpackedFloat.compare]

/-- Bits are unpacked as a zero exactly if exponent and fraction are zero. -/
theorem unpack_eq_zero_iff (hspec : 2 ≤ spec.exponentBits) {b : BitVec spec.numBits} :
    (∃ s, UnpackedFloat.unpack spec b = .zero s) ↔
      unpackExponent b = 0#_ ∧ unpackMantissa b = 0#_ := by
  have hne : BitVec.ofNat spec.exponentBits 0 ≠ -1#_ := by
    intro heq
    have hlt : 2 ^ 2 ≤ 2 ^ spec.exponentBits := Nat.pow_le_pow_right (by decide) hspec
    have hnat := congrArg BitVec.toNat heq
    rw [BitVec.neg_one_eq_allOnes, BitVec.toNat_allOnes, BitVec.toNat_ofNat, Nat.zero_mod] at hnat
    omega
  simp only [UnpackedFloat.unpack]
  by_cases hinfinite : unpackExponent b = -1#_
  · rw [if_pos hinfinite, hinfinite]
    simp only [hne.symm, false_and, iff_false]
    split <;> simp
  · rw [if_neg hinfinite]
    by_cases hzero : unpackExponent b = 0#_
    · rw [if_pos hzero]
      by_cases hfraction : unpackMantissa b = 0#_
      · simp [hfraction, hzero]
      · simp [hfraction]
    · simp [hzero]

/-! ### Numbers -/

/-- A double is given by its bits. -/
theorem ofBits_toBits (x : Float) : Float.ofBits x.toBits = x := by
  obtain ⟨bits, hvalid⟩ := x
  have hpack : UnpackedFloat.pack .binary64 (UnpackedFloat.unpack .binary64 bits.toBitVec) =
      bits.toBitVec := pack_unpack (by decide) hvalid
  simp only [Float.ofBits, Float.toBits, Float.Model.ofBits, Float.Model.pack, hpack]

/-- A single is given by its bits. -/
theorem ofBits_toBits_single (x : Float32) : Float32.ofBits x.toBits = x := by
  obtain ⟨bits, hvalid⟩ := x
  have hpack : UnpackedFloat.pack .binary32 (UnpackedFloat.unpack .binary32 bits.toBitVec) =
      bits.toBitVec := pack_unpack (by decide) hvalid
  simp only [Float32.ofBits, Float32.toBits, Float32.Model.ofBits, Float32.Model.pack, hpack]

end AlphaMachine
