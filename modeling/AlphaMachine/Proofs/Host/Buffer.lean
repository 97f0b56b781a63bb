import AlphaMachine.Host.CodeBuffer
import Mathlib.Algebra.Group.Nat.Defs

/-!
# Bytes in a buffer

What is left in a byte string after a stretch of it was overwritten: the stretch holds the new
bytes (`Bytes.slice_put`), everything else is as before (`Bytes.getElem?_put`), and it makes no
difference whether more was appended first (`Bytes.put_append`).  Numbers are read back from their
bytes by `Bytes.littleEndian_ofWord` and `Host.signedDword_ofDword`.
-/

namespace AlphaMachine

namespace Bytes

/-! ### Overwriting -/

theorem getElem?_put {bytes : Array UInt8} {i j : Nat} {data : List UInt8}
    (h : j < i ∨ i + data.length ≤ j) : (put bytes i data)[j]? = bytes[j]? := by
  induction data generalizing bytes i with
  | nil => rfl
  | cons b rest ih =>
    rw [List.length_cons] at h
    rw [put, ih (by omega), Array.getElem?_setIfInBounds_ne (by omega)]

theorem slice_congr {bytes bytes' : Array UInt8} {i count : Nat}
    (h : ∀ j, i ≤ j → j < i + count → bytes[j]? = bytes'[j]?) :
    slice bytes i count = slice bytes' i count := by
  induction count generalizing i with
  | zero => rfl
  | succ count ih =>
    have hhead : bytes.getD i 0 = bytes'.getD i 0 := by
      rw [Array.getD_eq_getD_getElem?, Array.getD_eq_getD_getElem?, h i (by omega) (by omega)]
    rw [slice, slice, hhead, ih fun j hj hj' => h j (by omega) (by omega)]

theorem slice_put {bytes : Array UInt8} {i : Nat} {data : List UInt8}
    (h : i + data.length ≤ bytes.size) : slice (put bytes i data) i data.length = data := by
  induction data generalizing bytes i with
  | nil => rfl
  | cons b rest ih =>
    rw [List.length_cons] at h
    have hhead : (put (bytes.setIfInBounds i b) (i + 1) rest)[i]? = some b := by
      rw [getElem?_put (by omega), Array.getElem?_setIfInBounds_self_of_lt (by omega)]
    have hsize : i + 1 + rest.length ≤ (bytes.setIfInBounds i b).size := by
      rw [Array.size_setIfInBounds]
      omega
    rw [put, List.length_cons, slice, ih hsize, Array.getD_eq_getD_getElem?, hhead,
      Option.getD_some]

theorem put_append {bytes : Array UInt8} {i : Nat} {data : List UInt8}
    (h : i + data.length ≤ bytes.size) (more : List UInt8) :
    put (bytes ++ more) i data = put bytes i data ++ more := by
  induction data generalizing bytes i with
  | nil => rfl
  | cons b rest ih =>
    rw [List.length_cons] at h
    have hset : (bytes ++ more).setIfInBounds i b = bytes.setIfInBounds i b ++ more := by
      rw [← Array.toList_inj]
      simp only [Array.toList_setIfInBounds, Array.toList_appendList]
      exact List.set_append_left i b (by rw [Array.length_toList]; omega)
    have hsize : i + 1 + rest.length ≤ (bytes.setIfInBounds i b).size := by
      rw [Array.size_setIfInBounds]
      omega
    rw [put, hset, ih hsize, put]

/-! ### Numbers -/

@[simp]
theorem length_ofWord (value : UInt64) (count : Nat) : (ofWord value count).length = count := by
  induction count generalizing value with
  | zero => rfl
  | succ count ih => rw [ofWord, List.length_cons, ih]

theorem littleEndian_ofWord (value : UInt64) (count : Nat) :
    littleEndian (ofWord value count) = value.toNat % 256 ^ count := by
  induction count generalizing value with
  | zero => rw [ofWord, littleEndian, Nat.pow_zero, Nat.mod_one]
  | succ count ih =>
    have hshift : (value >>> 8).toNat = value.toNat / 256 := by
      rw [UInt64.toNat_shiftRight]
      exact Nat.shiftRight_eq_div_pow value.toNat 8
    have hpow : 256 ^ (count + 1) = 256 * 256 ^ count := Nat.pow_succ'
    rw [ofWord, littleEndian, ih, hshift, UInt64.toNat_toUInt8, hpow, Nat.mod_mul]

end Bytes

namespace Host

/-- The signed number that four bytes spell. -/
def signedDword (bytes : List UInt8) : Int32 := (UInt32.ofNat (Bytes.littleEndian bytes)).toInt32

theorem signedDword_ofWord (value : UInt64) :
    signedDword (Bytes.ofWord value 4) = value.toUInt32.toInt32 := by
  have hword : UInt32.ofNat (value.toNat % 256 ^ 4) = value.toUInt32 := by
    rw [← UInt32.toNat_inj, UInt32.toNat_ofNat', UInt64.toNat_toUInt32]
    omega
  rw [signedDword, Bytes.littleEndian_ofWord, hword]

theorem signedDword_ofDword (value : Int32) :
    signedDword (Bytes.ofWord value.toUInt32.toUInt64 4) = value := by
  rw [signedDword_ofWord, UInt32.toUInt32_toUInt64]
  rfl

/-! ### Buffers -/

namespace CodeBuffer

@[simp]
theorem append_nil (buf : CodeBuffer) : buf.append [] = buf := by
  have hbytes : buf.bytes ++ ([] : List UInt8) = buf.bytes := by
    rw [← Array.toList_inj, Array.toList_appendList, List.append_nil]
  exact congrArg CodeBuffer.mk hbytes

theorem append_append (buf : CodeBuffer) (l l' : List UInt8) :
    (buf.append l).append l' = buf.append (l ++ l') := by
  have hbytes : buf.bytes ++ l ++ l' = buf.bytes ++ (l ++ l') := by
    rw [← Array.toList_inj]
    simp only [Array.toList_appendList, List.append_assoc]
  exact congrArg CodeBuffer.mk hbytes

@[simp]
theorem size_append (buf : CodeBuffer) (l : List UInt8) :
    (buf.append l).size = buf.size + l.length := by
  rw [size, size, append, ← Array.length_toList, Array.toList_appendList, List.length_append,
    Array.length_toList]

@[simp]
theorem size_patchDword (buf : CodeBuffer) (offset : Nat) (value : UInt32) :
    (buf.patchDword offset value).size = buf.size := Bytes.size_put ..

/-- It makes no difference whether bytes are appended before or after patching. -/
theorem patchDword_append {buf : CodeBuffer} {offset : Nat} (h : offset + 4 ≤ buf.size)
    (value : UInt32) (l : List UInt8) :
    (buf.append l).patchDword offset value = (buf.patchDword offset value).append l := by
  have hdata : offset + (Bytes.ofWord value.toUInt64 4).length ≤ buf.bytes.size := by
    rw [Bytes.length_ofWord]
    exact h
  exact congrArg CodeBuffer.mk (Bytes.put_append hdata l)

/-- The signed number in the four bytes at `offset`. -/
def field (buf : CodeBuffer) (offset : Nat) : Int32 := signedDword (Bytes.slice buf.bytes offset 4)

theorem field_patchDword {buf : CodeBuffer} {offset : Nat} (h : offset + 4 ≤ buf.size)
    (value : Int32) : (buf.patchDword offset value.toUInt32).field offset = value := by
  have hlength := Bytes.length_ofWord value.toUInt32.toUInt64 4
  have hdata : offset + (Bytes.ofWord value.toUInt32.toUInt64 4).length ≤ buf.bytes.size := by
    rw [hlength]
    exact h
  have hslice := Bytes.slice_put hdata
  rw [hlength] at hslice
  rw [field, patchDword, hslice, signedDword_ofDword]

end CodeBuffer

end Host

end AlphaMachine
