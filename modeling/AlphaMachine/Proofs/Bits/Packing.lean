import AlphaMachine.Bits.Packer
import Mathlib.Data.List.Induction
import Mathlib.Tactic.Ring

/-!
# The bit string of a packer

A packer stands for a bit string: the bits of its completed bytes, followed by the waiting bits
(`Packer.bits`).  Writing a field appends the bits of the field, however the field lies across
bytes:

* `Packer.bits_write` : `write` appends the low bits of a number, the most significant first;
* `Packer.bits_finish` : a packer without waiting bits finishes with the bytes of its bit string.

Bit strings are read as numbers by `Bits.number`.  A stretch of bits is a quotient and a remainder
(`Bits.number_append`), and the bits of a number can be cut at any place (`Bits.low_append`).
-/

namespace AlphaMachine

/-! ### Bit strings -/

namespace Bits

/-- The low `count` bits of `value`, the most significant first. -/
def low (value : Nat) : Nat → List Bool
  | 0 => []
  | count + 1 => value.testBit count :: low value count

/-- The number that a bit string spells, the first bit most significant. -/
def number (bits : List Bool) : Nat := bits.foldl (fun n bit => 2 * n + bit.toNat) 0

@[simp]
theorem length_low (value count : Nat) : (low value count).length = count := by
  induction count with
  | zero => rfl
  | succ count ih => rw [low, List.length_cons, ih]

/-- Only the low bits matter. -/
theorem low_congr {a b count : Nat} (h : ∀ i < count, a.testBit i = b.testBit i) :
    low a count = low b count := by
  induction count with
  | zero => rfl
  | succ count ih =>
    rw [low, low, h count (Nat.lt_succ_self count), ih fun i hi => h i (Nat.lt_succ_of_lt hi)]

theorem low_mod {value count width : Nat} (h : count ≤ width) :
    low (value % 2 ^ width) count = low value count := by
  refine low_congr fun i hi => ?_
  rw [Nat.testBit_mod_two_pow, decide_eq_true (Nat.lt_of_lt_of_le hi h), Bool.true_and]

/-- The bits of a number can be cut at any place. -/
theorem low_append (value high count : Nat) :
    low (value >>> count) high ++ low value count = low value (high + count) := by
  induction high with
  | zero => rw [Nat.zero_add, low, List.nil_append]
  | succ high ih =>
    rw [Nat.succ_add, low, low, List.cons_append, ih, Nat.testBit_shiftRight, Nat.add_comm count]

@[simp]
theorem number_nil : number [] = 0 := rfl

theorem number_concat (bits : List Bool) (bit : Bool) :
    number (bits ++ [bit]) = 2 * number bits + bit.toNat := by
  rw [number, List.foldl_append]
  rfl

theorem number_append_low (bits : List Bool) (value count : Nat) :
    number (bits ++ low value count) = number bits * 2 ^ count + value % 2 ^ count := by
  induction count generalizing bits with
  | zero => simp [low, Nat.mod_one]
  | succ count ih =>
    have hcons : bits ++ low value (count + 1) =
        (bits ++ [value.testBit count]) ++ low value count := by simp [low]
    have hbit : (value.testBit count).toNat = value / 2 ^ count % 2 := Nat.toNat_testBit value count
    rw [hcons, ih, number_concat, Nat.mod_pow_succ, hbit, Nat.pow_succ]
    ring

/-- The bits of a number spell its remainder. -/
theorem number_low (value count : Nat) : number (low value count) = value % 2 ^ count := by
  have happend := number_append_low [] value count
  rwa [List.nil_append, number_nil, Nat.zero_mul, Nat.zero_add] at happend

theorem number_lt (bits : List Bool) : number bits < 2 ^ bits.length := by
  induction bits using List.reverseRecOn with
  | nil => exact Nat.one_pos
  | append_singleton bits bit ih =>
    have hbit : bit.toNat ≤ 1 := Bool.toNat_le bit
    rw [number_concat, List.length_append, List.length_singleton, Nat.pow_succ]
    omega

/-- The first bits are the quotient, the last ones the remainder. -/
theorem number_append (bits rest : List Bool) :
    number (bits ++ rest) = number bits * 2 ^ rest.length + number rest := by
  induction rest using List.reverseRecOn with
  | nil => simp
  | append_singleton rest bit ih =>
    rw [← List.append_assoc, number_concat, number_concat, ih, List.length_append,
      List.length_singleton, Nat.pow_succ]
    ring

end Bits

/-! ### Packers -/

namespace Packer

open Bits

/-- The bit string of a packer. -/
def bits (p : Packer) : List Bool :=
  p.bytes.toList.flatMap (fun b => low b.toNat 8) ++ low p.acc.toNat p.pending

/-- Shifting a bit into the accumulator appends it to the waiting bits. -/
theorem low_shiftIn (acc : UInt8) (bit : Bool) {pending : Nat} (h : pending < 8) :
    low (acc <<< 1 ||| bit.toUInt8).toNat (pending + 1) = low acc.toNat pending ++ [bit] := by
  have hbit : bit.toNat < 2 := Bool.toNat_lt bit
  have hvalue : (acc <<< 1 ||| bit.toUInt8).toNat = (acc.toNat <<< 1 + bit.toNat) % 2 ^ 8 := by
    have hsmall : bit.toUInt8.toNat = bit.toNat % 2 ^ 8 := by cases bit <;> rfl
    rw [UInt8.toNat_or, UInt8.toNat_shiftLeft, hsmall, ← Nat.or_mod_two_pow,
      Nat.shiftLeft_add_eq_or_of_lt hbit]
    rfl
  have hshift : (acc.toNat <<< 1 + bit.toNat) >>> 1 = acc.toNat := by
    rw [Nat.shiftLeft_eq, Nat.shiftRight_eq_div_pow]
    omega
  have hlast : (acc.toNat <<< 1 + bit.toNat).testBit 0 = bit := by
    cases bit <;> simp [Nat.shiftLeft_eq]
  rw [hvalue, low_mod h, ← low_append _ pending 1, hshift, low, low, hlast]

/-- **Writing a bit appends it.** -/
theorem bits_writeBit {p : Packer} (h : p.pending < 8) (bit : Bool) :
    (p.writeBit bit).bits = p.bits ++ [bit] := by
  have hacc := low_shiftIn p.acc bit h
  unfold writeBit
  dsimp only
  split
  · next hfull =>
    rw [hfull] at hacc
    have hempty : low 0 0 = [] := rfl
    simp only [bits, Array.toList_push, List.flatMap_append, List.flatMap_singleton, hacc,
      UInt8.toNat_zero, hempty, List.append_nil, List.append_assoc]
  · rw [bits, hacc, ← List.append_assoc]
    rfl

theorem pending_writeBit {p : Packer} (h : p.pending < 8) (bit : Bool) :
    (p.writeBit bit).pending < 8 := by
  unfold writeBit
  dsimp only
  split
  · exact Nat.zero_lt_succ 7
  · next hfull => exact Nat.lt_of_le_of_ne h hfull

/-- **Writing a number appends its low bits**, the most significant first. -/
theorem bits_write {p : Packer} (h : p.pending < 8) (value count : Nat) :
    (p.write value count).bits = p.bits ++ low value count ∧ (p.write value count).pending < 8 := by
  induction count generalizing p with
  | zero => exact ⟨(List.append_nil _).symm, h⟩
  | succ count ih =>
    obtain ⟨hbits, hpending⟩ := ih (pending_writeBit h (value.testBit count))
    refine ⟨?_, hpending⟩
    rw [write, hbits, bits_writeBit h, List.append_assoc]
    rfl

theorem bits_writeFields {p : Packer} (h : p.pending < 8) (fields : List (Nat × Nat)) :
    (p.writeFields fields).bits = p.bits ++ fields.flatMap (fun f => low f.1 f.2) ∧
      (p.writeFields fields).pending < 8 := by
  induction fields generalizing p with
  | nil => exact ⟨(List.append_nil _).symm, h⟩
  | cons f rest ih =>
    obtain ⟨hbits, hpending⟩ := bits_write h f.1 f.2
    obtain ⟨hrest, hlast⟩ := ih hpending
    refine ⟨?_, hlast⟩
    rw [List.flatMap_cons, ← List.append_assoc, ← hbits]
    exact hrest

theorem length_bits (p : Packer) : p.bits.length = 8 * p.bytes.size + p.pending := by
  have hbytes (l : List UInt8) : (l.flatMap fun b => low b.toNat 8).length = 8 * l.length := by
    induction l with
    | nil => rfl
    | cons b rest ih =>
      rw [List.flatMap_cons, List.length_append, ih, length_low, List.length_cons]
      omega
  rw [bits, List.length_append, hbytes, length_low, Array.length_toList]

/-- A whole number of bytes is finished as it is. -/
theorem bits_finish {p : Packer} (h : p.pending < 8) (hwhole : p.bits.length % 8 = 0) :
    p.finish.toList.flatMap (fun b => low b.toNat 8) = p.bits := by
  have hlength := p.length_bits
  have hpending : p.pending = 0 := by omega
  rw [finish, flush, if_pos hpending, bits, hpending, low, List.append_nil]

theorem size_finish {p : Packer} (h : p.pending < 8) (hwhole : p.bits.length % 8 = 0) :
    8 * p.finish.size = p.bits.length := by
  have hlength := p.length_bits
  have hpending : p.pending = 0 := by omega
  rw [finish, flush, if_pos hpending]
  omega

end Packer

end AlphaMachine
