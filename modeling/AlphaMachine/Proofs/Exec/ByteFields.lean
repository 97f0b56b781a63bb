import AlphaMachine.Proofs.Host.Buffer
import AlphaMachine.Proofs.Host.Arithmetic

/-!
# Words byte by byte

What the byte-manipulation operations do is simple in terms of bytes: byte `i` of the result is a
certain byte of the first operand, or zero.  A datum of `size` bytes at byte `k` of a quadword
takes up the bytes from `k` on, and those beyond the quadword are at the beginning of the next one.

* `Integer.byteAt_shiftLeft`, `Integer.byteAt_shiftRight`, `Integer.byteAt_zapNot` : shifts by whole
  bytes, and masks;
* `Integer.byteAt_extractLow` and the five other forms : extracting, inserting and masking the two
  halves of a datum;
* `Integer.toNat_eq_littleEndian` : the number whose bytes are known.
-/

namespace AlphaMachine

theorem AccessSize.bytes_le (size : AccessSize) : size.bytes ≤ 8 := by
  cases size <;> decide

namespace Integer

variable {i j k : Nat}

/-! ### Bits of bytes -/

theorem testBit_byteAt (value : UInt64) (hi : i < 8) (hj : j < 8) :
    (byteAt value i).toNat.testBit j = value.toNat.testBit (8 * i + j) := by
  have hpow : 256 ^ i = 2 ^ (8 * i) := by rw [Nat.pow_mul]
  rw [toNat_byteAt value hi, hpow, show 256 = 2 ^ 8 from rfl, Nat.testBit_mod_two_pow,
    Nat.testBit_div_two_pow, Nat.add_comm j]
  simp [hj]

theorem byte_ext {a b : UInt8} (h : ∀ j < 8, a.toNat.testBit j = b.toNat.testBit j) : a = b := by
  rw [← UInt8.toNat_inj]
  refine Nat.eq_of_testBit_eq fun j => ?_
  by_cases hj : j < 8
  · exact h j hj
  · have hlt (x : UInt8) : x.toNat < 2 ^ j :=
      Nat.lt_of_lt_of_le x.toNat_lt (Nat.pow_le_pow_right (by decide) (by omega))
    rw [Nat.testBit_lt_two_pow (hlt a), Nat.testBit_lt_two_pow (hlt b)]

/-! ### Shifts and masks -/

theorem byteAt_zero (hi : i < 8) : byteAt 0 i = 0 := by
  refine byte_ext fun j hj => ?_
  rw [testBit_byteAt _ hi hj]
  simp

theorem byteAt_or (a b : UInt64) (hi : i < 8) :
    byteAt (a ||| b) i = byteAt a i ||| byteAt b i := by
  refine byte_ext fun j hj => ?_
  rw [UInt8.toNat_or, Nat.testBit_or]
  simp only [testBit_byteAt _ hi hj, UInt64.toNat_or, Nat.testBit_or]

theorem byteAt_and (a b : UInt64) (hi : i < 8) :
    byteAt (a &&& b) i = byteAt a i &&& byteAt b i := by
  refine byte_ext fun j hj => ?_
  rw [UInt8.toNat_and, Nat.testBit_and]
  simp only [testBit_byteAt _ hi hj, UInt64.toNat_and, Nat.testBit_and]

/-- A shift count of whole bytes. -/
theorem toNat_byteCount (hk : k < 8) : (8 * k).toUInt64.toNat % 64 = 8 * k := by
  change 8 * k % 2 ^ 64 % 64 = 8 * k
  omega

theorem byteAt_shiftRight (a : UInt64) (hk : k < 8) (hi : i < 8) :
    byteAt (a >>> (8 * k).toUInt64) i = if i + k < 8 then byteAt a (i + k) else 0 := by
  refine byte_ext fun j hj => ?_
  rw [testBit_byteAt _ hi hj, UInt64.toNat_shiftRight, toNat_byteCount hk, Nat.testBit_shiftRight]
  split
  · next hlt =>
    rw [testBit_byteAt _ hlt hj]
    congr 1
    omega
  · have hbeyond : a.toNat < 2 ^ (8 * k + (8 * i + j)) :=
      Nat.lt_of_lt_of_le a.toNat_lt (Nat.pow_le_pow_right (by decide) (by omega))
    rw [Nat.testBit_lt_two_pow hbeyond]
    simp

theorem byteAt_shiftLeft (a : UInt64) (hk : k < 8) (hi : i < 8) :
    byteAt (a <<< (8 * k).toUInt64) i = if k ≤ i then byteAt a (i - k) else 0 := by
  refine byte_ext fun j hj => ?_
  have hinside : 8 * i + j < 64 := by omega
  rw [testBit_byteAt _ hi hj, UInt64.toNat_shiftLeft, toNat_byteCount hk, Nat.testBit_mod_two_pow,
    Nat.testBit_shiftLeft, decide_eq_true hinside, Bool.true_and]
  split
  · next hle =>
    have hdistance : 8 * i + j - 8 * k = 8 * (i - k) + j := by omega
    rw [testBit_byteAt _ (by omega) hj, hdistance, decide_eq_true (by omega), Bool.true_and]
  · rw [decide_eq_false (by omega), Bool.false_and]
    simp

/-- Keeping one byte of a word. -/
theorem byteAt_select (value : UInt64) (hi : i < 8) (hk : k < 8) :
    byteAt (value &&& 0xFF <<< (8 * k).toUInt64) i = if i = k then byteAt value i else 0 := by
  have hones : ∀ i < 8, byteAt 0xFF i = if i = 0 then 0xFF else 0 := by decide
  rw [byteAt_and _ _ hi, byteAt_shiftLeft _ hk hi]
  by_cases heq : i = k
  · subst heq
    rw [if_pos (Nat.le_refl i), hones _ (by omega), if_pos (Nat.sub_self i), if_pos rfl]
    exact UInt8.and_neg_one
  · rw [if_neg heq]
    split
    · rw [hones _ (by omega), if_neg (by omega)]
      exact UInt8.and_zero
    · exact UInt8.and_zero

/-- **A mask keeps the bytes whose bit is set.** -/
theorem byteAt_zapNot (value mask : UInt64) (hi : i < 8) :
    byteAt (zapNot value mask) i = if mask.toNat.testBit i then byteAt value i else 0 := by
  -- Along the list of bytes: what has been kept so far, and what the rest of the list adds.
  have hfold (l : List Nat) (hl : ∀ k ∈ l, k < 8) (out : UInt64) :
      byteAt (l.foldl (fun out k =>
        if mask.toNat.testBit k then out ||| value &&& 0xFF <<< (8 * k).toUInt64 else out) out) i =
        byteAt out i ||| if i ∈ l ∧ mask.toNat.testBit i then byteAt value i else 0 := by
    induction l generalizing out with
    | nil => simp
    | cons k rest ih =>
      obtain ⟨hk, hrest⟩ := List.forall_mem_cons.1 hl
      rw [List.foldl_cons, ih hrest]
      split
      · next hmask =>
        rw [byteAt_or _ _ hi, byteAt_select _ hi hk]
        by_cases heq : i = k
        · subst heq
          by_cases hmem : i ∈ rest <;> simp [hmask, hmem, UInt8.or_assoc]
        · simp [heq]
      · next hmask =>
        by_cases heq : i = k
        · subst heq
          simp [hmask]
        · simp [heq]
  rw [zapNot, hfold _ (by simp), byteAt_zero hi]
  simp [hi]

theorem byteAt_zap (value mask : UInt64) (hi : i < 8) :
    byteAt (zap value mask) i = if mask.toNat.testBit i then 0 else byteAt value i := by
  have hnot : (~~~mask).toNat.testBit i = !mask.toNat.testBit i := by
    rw [← UInt64.toNat_toBitVec, ← UInt64.toNat_toBitVec, UInt64.toBitVec_not,
      BitVec.testBit_toNat, BitVec.testBit_toNat, BitVec.getLsbD_not,
      decide_eq_true (by omega), Bool.true_and]
  rw [zap, byteAt_zapNot _ _ hi, hnot]
  cases mask.toNat.testBit i <;> rfl

/-! ### Fields -/

/-- The byte of a quadword at which the datum at an address begins. -/
def offset (address : UInt64) : Nat := address.toNat % 8

theorem offset_lt (address : UInt64) : offset address < 8 := Nat.mod_lt _ (by decide)

theorem and_seven (address : UInt64) : address &&& 7 = (offset address).toUInt64 := by
  have hmask : (address &&& 7).toNat = address.toNat % 8 := by
    rw [UInt64.toNat_and]
    exact Nat.and_two_pow_sub_one_eq_mod _ 3
  have hlt := offset_lt address
  rw [← UInt64.toNat_inj, hmask]
  exact (Nat.mod_eq_of_lt (show offset address < 2 ^ 64 by omega)).symm

/-! The mask of a size has a bit for each byte of the datum; the shifted mask says which bytes of
the two quadwords together the datum takes up. -/

theorem toNat_sizeMask (size : AccessSize) : (sizeMask size).toNat = 2 ^ size.bytes - 1 := by
  cases size <;> rfl

theorem testBit_sizeMask (size : AccessSize) (i : Nat) :
    (sizeMask size).toNat.testBit i = decide (i < size.bytes) := by
  rw [toNat_sizeMask, Nat.testBit_two_pow_sub_one]

theorem testBit_sizeMask_shiftLeft (size : AccessSize) (hk : k < 8) (i : Nat) :
    (sizeMask size <<< k.toUInt64).toNat.testBit i = decide (k ≤ i ∧ i < k + size.bytes) := by
  have hshift : k.toUInt64.toNat % 64 = k := by
    rw [UInt64.toNat_ofNat']
    omega
  have hones : 2 ^ size.bytes - 1 < 2 ^ 8 :=
    Nat.lt_of_lt_of_le (Nat.sub_lt Nat.one_le_two_pow Nat.one_pos)
      (Nat.pow_le_pow_right (by decide) size.bytes_le)
  have hlt : (2 ^ size.bytes - 1) <<< k < 2 ^ 64 := by
    rw [Nat.shiftLeft_eq]
    calc (2 ^ size.bytes - 1) * 2 ^ k
        < 2 ^ 8 * 2 ^ k := Nat.mul_lt_mul_of_pos_right hones (Nat.two_pow_pos k)
      _ ≤ 2 ^ 8 * 2 ^ 8 := Nat.mul_le_mul_left _ (Nat.pow_le_pow_right (by decide) (by omega))
      _ < 2 ^ 64 := by decide
  rw [UInt64.toNat_shiftLeft, hshift, toNat_sizeMask, Nat.mod_eq_of_lt hlt, Nat.testBit_shiftLeft,
    Nat.testBit_two_pow_sub_one]
  grind

theorem testBit_fieldMask_low (size : AccessSize) (hk : k < 8) (hi : i < 8) :
    (fieldMask .low size k.toUInt64).toNat.testBit i = decide (k ≤ i ∧ i < k + size.bytes) := by
  have hbyte : (0xFF : UInt64).toNat.testBit i = true := by
    have hones := Nat.testBit_two_pow_sub_one 8 i
    rwa [decide_eq_true hi] at hones
  rw [fieldMask, UInt64.toNat_and, Nat.testBit_and, testBit_sizeMask_shiftLeft size hk, hbyte,
    Bool.and_true]

theorem testBit_fieldMask_high (size : AccessSize) (hk : k < 8) (i : Nat) :
    (fieldMask .high size k.toUInt64).toNat.testBit i = decide (i + 8 < k + size.bytes) := by
  have hshift : (8 : UInt64).toNat % 64 = 8 := rfl
  rw [fieldMask, UInt64.toNat_shiftRight, hshift, Nat.testBit_shiftRight,
    testBit_sizeMask_shiftLeft size hk]
  grind

theorem eight_mul_offset (k : Nat) : 8 * k.toUInt64 = (8 * k).toUInt64 :=
  (UInt64.ofNat_mul 8 k).symm

section Fields

variable (size : AccessSize) (a b : UInt64)

/-- The part of the datum in the quadword. -/
theorem byteAt_extractLow (hi : i < 8) :
    byteAt (byteField .extract .low size a b) i =
      if i < size.bytes ∧ i + offset b < 8 then byteAt a (i + offset b) else 0 := by
  simp only [byteField, and_seven, eight_mul_offset]
  rw [byteAt_zapNot _ _ hi, testBit_sizeMask, byteAt_shiftRight _ (offset_lt b) hi]
  by_cases hsize : i < size.bytes <;> simp [hsize]

/-- The part of the datum beyond the previous quadword, behind the bytes that were there. -/
theorem byteAt_extractHigh (hi : i < 8) :
    byteAt (byteField .extract .high size a b) i =
      if i < size.bytes ∧ (8 - offset b) % 8 ≤ i then byteAt a (i - (8 - offset b) % 8) else 0 := by
  have hcount : ∀ k : Nat, k < 8 → (64 - 8 * k.toUInt64) &&& 63 = (8 * ((8 - k) % 8)).toUInt64 := by
    decide
  simp only [byteField, and_seven, hcount _ (offset_lt b)]
  rw [byteAt_zapNot _ _ hi, testBit_sizeMask, byteAt_shiftLeft _ (by omega) hi]
  by_cases hsize : i < size.bytes <;> simp [hsize]

/-- The datum in its place, as far as it is in the quadword. -/
theorem byteAt_insertLow (hi : i < 8) :
    byteAt (byteField .insert .low size a b) i =
      if offset b ≤ i ∧ i < offset b + size.bytes then byteAt a (i - offset b) else 0 := by
  simp only [byteField, and_seven, eight_mul_offset]
  rw [byteAt_zapNot _ _ hi, testBit_fieldMask_low _ (offset_lt b) hi,
    byteAt_shiftLeft _ (offset_lt b) hi]
  by_cases hle : offset b ≤ i <;> simp [hle]

theorem byteAt_insertHigh (hi : i < 8) :
    byteAt (byteField .insert .high size a b) i =
      if i + 8 < offset b + size.bytes then byteAt a (i + 8 - offset b) else 0 := by
  have hsize := size.bytes_le
  have hlt := offset_lt b
  simp only [byteField, and_seven]
  generalize offset b = k at hlt ⊢
  by_cases hzero : k = 0
  · subst hzero
    rw [if_pos (by decide), byteAt_zero hi, if_neg (by omega)]
  · have hne : ∀ k : Nat, k < 8 → k ≠ 0 → k.toUInt64 ≠ 0 := by decide
    have hcount : ∀ k : Nat, k < 8 → k ≠ 0 → 64 - 8 * k.toUInt64 = (8 * (8 - k)).toUInt64 := by
      decide
    rw [if_neg (hne k hlt hzero), hcount k hlt hzero, byteAt_zapNot _ _ hi,
      testBit_fieldMask_high _ hlt, byteAt_shiftRight _ (by omega) hi]
    by_cases hinside : i + 8 < k + size.bytes
    · have hindex : i + (8 - k) = i + 8 - k := by omega
      rw [if_pos (decide_eq_true hinside), if_pos hinside, if_pos (by omega), hindex]
    · rw [if_neg (by simpa using hinside), if_neg hinside]

theorem byteAt_maskLow (hi : i < 8) :
    byteAt (byteField .mask .low size a b) i =
      if offset b ≤ i ∧ i < offset b + size.bytes then 0 else byteAt a i := by
  simp only [byteField, and_seven]
  rw [byteAt_zap _ _ hi, testBit_fieldMask_low _ (offset_lt b) hi]
  simp

theorem byteAt_maskHigh (hi : i < 8) :
    byteAt (byteField .mask .high size a b) i =
      if i + 8 < offset b + size.bytes then 0 else byteAt a i := by
  simp only [byteField, and_seven]
  rw [byteAt_zap _ _ hi, testBit_fieldMask_high _ (offset_lt b)]
  simp

end Fields

/-! ### Numbers -/

theorem getElem?_ofWord (value : UInt64) {count : Nat} (hi : i < count) (hcount : count ≤ 8) :
    (Bytes.ofWord value count)[i]? = some (byteAt value i) := by
  induction count generalizing value i with
  | zero => omega
  | succ count ih =>
    cases i with
    | zero =>
      have hshift : value >>> (8 * 0).toUInt64 = value := UInt64.shiftRight_zero
      rw [Bytes.ofWord, List.getElem?_cons_zero, byteAt, hshift]
    | succ i =>
      have hbyte : byteAt (value >>> 8) i = byteAt value (i + 1) := by
        have hshift := byteAt_shiftRight value (k := 1) (i := i) (by decide) (by omega)
        rwa [if_pos (by omega)] at hshift
      rw [Bytes.ofWord, List.getElem?_cons_succ, ih _ (by omega) (by omega), hbyte]

theorem littleEndian_append_zeros (l : List UInt8) (count : Nat) :
    Bytes.littleEndian (l ++ List.replicate count 0) = Bytes.littleEndian l := by
  induction l with
  | nil =>
    induction count with
    | zero => rfl
    | succ count ih =>
      rw [List.nil_append] at ih
      simp [List.replicate_succ, Bytes.littleEndian, ih]
  | cons b rest ih => rw [List.cons_append, Bytes.littleEndian, ih, Bytes.littleEndian]

/-- **A word is the number that its bytes spell.** -/
theorem toNat_eq_littleEndian {value : UInt64} {l : List UInt8} (hl : l.length ≤ 8)
    (h : ∀ i < 8, byteAt value i = l.getD i 0) : value.toNat = Bytes.littleEndian l := by
  have hbytes : Bytes.ofWord value 8 = l ++ List.replicate (8 - l.length) 0 := by
    refine List.ext_getElem? fun i => ?_
    by_cases hi : i < 8
    · rw [getElem?_ofWord value hi (Nat.le_refl 8), h i hi]
      by_cases hlt : i < l.length
      · rw [List.getElem?_append_left hlt, List.getD_eq_getElem?_getD,
          List.getElem?_eq_getElem hlt, Option.getD_some]
      · have hpad : i - l.length < 8 - l.length := by omega
        rw [List.getElem?_append_right (by omega), List.getElem?_replicate, if_pos hpad,
          List.getD_eq_getElem?_getD, List.getElem?_eq_none (by omega), Option.getD_none]
    · rw [List.getElem?_eq_none (by rw [Bytes.length_ofWord]; omega),
        List.getElem?_eq_none (by simp; omega)]
  have hvalue := Bytes.littleEndian_ofWord value 8
  have hlt : value.toNat < 256 ^ 8 := value.toNat_lt
  rw [hbytes, littleEndian_append_zeros, Nat.mod_eq_of_lt hlt] at hvalue
  exact hvalue.symm

end Integer

end AlphaMachine
