import AlphaMachine.Proofs.Bits.Packing

/-!
# The bytes of a packer

A packer is used by writing fields and by flushing.  The calls spell a bit string, which is defined
here without a packer (`PackerCall.bitString`): a field appends its bits, and a flush appends zero
bits up to the next byte boundary.  What a packer finishes with are the bytes that it was started
with, followed by the bytes of the bit string, eight bits each from the first on (`Bits.toBytes`).

The invariant is `Packer.Holds`.  It is about the bit string of the packer alone, so that one lemma
about a call (`Packer.Holds.apply`) covers fields that lie across any number of bytes; where the
byte boundaries are follows from the number of bits.

* `Packer.bits_flush` : a flush appends zero bits up to the next byte boundary;
* `Packer.Holds.applyAll` : what a packer holds after any calls;
* `Packer.finish_packs_bitString` : the finished bytes and the waiting bits.
-/

namespace AlphaMachine

/-! ### Bytes of bit strings -/

namespace Bits

theorem low_zero (count : Nat) : low 0 count = List.replicate count false := by
  induction count with
  | zero => rfl
  | succ count ih => rw [low, ih, Nat.zero_testBit, List.replicate_succ]

/-- Shifting a number up appends zero bits. -/
theorem low_shiftLeft (value high count : Nat) :
    low (value <<< count) (high + count) = low value high ++ List.replicate count false := by
  have hzeros : low (value <<< count) count = low 0 count := by
    refine low_congr fun i hi => ?_
    rw [Nat.testBit_shiftLeft, decide_eq_false (Nat.not_le.2 hi), Bool.false_and, Nat.zero_testBit]
  rw [← low_append, Nat.shiftLeft_shiftRight, hzeros, low_zero]

/-- The bits of some bytes, the most significant bit of each byte first. -/
def fromBytes (bytes : List UInt8) : List Bool := bytes.flatMap fun b => low b.toNat 8

/-- The bytes of a bit string, eight bits each from the first on; an incomplete tail is dropped. -/
def toBytes : List Bool → List UInt8
  | b₇ :: b₆ :: b₅ :: b₄ :: b₃ :: b₂ :: b₁ :: b₀ :: rest =>
    .ofNat (number [b₇, b₆, b₅, b₄, b₃, b₂, b₁, b₀]) :: toBytes rest
  | _ => []

/-- A bit string with zero bits up to the next byte boundary. -/
def padded (bits : List Bool) : List Bool :=
  bits ++ List.replicate ((8 - bits.length % 8) % 8) false

theorem length_fromBytes (bytes : List UInt8) : (fromBytes bytes).length = 8 * bytes.length := by
  induction bytes with
  | nil => rfl
  | cons b rest ih =>
    rw [fromBytes, List.flatMap_cons, List.length_append, length_low, List.length_cons]
    change 8 + (fromBytes rest).length = _
    omega

theorem toBytes_low_append (b : UInt8) (rest : List Bool) :
    toBytes (low b.toNat 8 ++ rest) = b :: toBytes rest := by
  have hnumber : UInt8.ofNat (number (low b.toNat 8)) = b := by
    rw [number_low, Nat.mod_eq_of_lt b.toNat_lt, UInt8.ofNat_toNat]
  exact congrArg (· :: toBytes rest) hnumber

/-- Whole bytes in front of a bit string are its first bytes. -/
theorem toBytes_fromBytes_append (bytes : List UInt8) (rest : List Bool) :
    toBytes (fromBytes bytes ++ rest) = bytes ++ toBytes rest := by
  induction bytes with
  | nil => rfl
  | cons b bytes ih =>
    rw [fromBytes, List.flatMap_cons, List.append_assoc, toBytes_low_append]
    exact congrArg (b :: ·) ih

theorem toBytes_of_length_lt {bits : List Bool} (h : bits.length < 8) : toBytes bits = [] := by
  unfold toBytes
  split
  · simp only [List.length_cons] at h
    omega
  · rfl

theorem padded_append {bits rest : List Bool} (h : bits.length % 8 = 0) :
    padded (bits ++ rest) = bits ++ padded rest := by
  have hlength : (bits ++ rest).length % 8 = rest.length % 8 := by
    rw [List.length_append]
    omega
  rw [padded, hlength, List.append_assoc, padded]

end Bits

/-! ### Calls -/

/-- A use of a packer. -/
inductive PackerCall where
  /-- Append the low `count` bits of `value`, the most significant first. -/
  | write (value count : Nat)
  /-- Complete the last byte with zero bits. -/
  | flush

namespace PackerCall

/-- What a call makes of a bit string. -/
def extend (bits : List Bool) : PackerCall → List Bool
  | .write value count => bits ++ Bits.low value count
  | .flush => Bits.padded bits

/-- The bit string that calls spell. -/
def bitString (calls : List PackerCall) : List Bool := calls.foldl extend []

end PackerCall

namespace Packer

open Bits

variable {p : Packer} {before : List UInt8} {bits : List Bool}

/-- Answer a call. -/
def apply (p : Packer) : PackerCall → Packer
  | .write value count => p.write value count
  | .flush => p.flush

/-- Answer calls one after the other. -/
def applyAll (p : Packer) (calls : List PackerCall) : Packer := calls.foldl apply p

/-! ### Flushing -/

theorem pending_flush (p : Packer) : p.flush.pending = 0 := by
  unfold flush
  split
  · assumption
  · rfl

theorem flush_flush (p : Packer) : p.flush.flush = p.flush := by
  have hpending := p.pending_flush
  rw [flush, if_pos hpending]

/-- The last byte of a flush: the waiting bits and zero bits behind them. -/
theorem low_flushed (acc : UInt8) {pending : Nat} (hpos : 0 < pending) (hlt : pending < 8) :
    low (acc <<< (8 - pending).toUInt8).toNat 8 =
      low acc.toNat pending ++ List.replicate (8 - pending) false := by
  have hcount : (8 - pending).toUInt8.toNat % 8 = 8 - pending := by
    rw [Nat.toUInt8, UInt8.toNat_ofNat']
    omega
  have hbits : low (acc.toNat <<< (8 - pending)) (pending + (8 - pending)) = _ :=
    low_shiftLeft acc.toNat pending (8 - pending)
  rw [UInt8.toNat_shiftLeft, hcount, low_mod (Nat.le_refl 8), ← hbits,
    Nat.add_sub_cancel' (Nat.le_of_lt hlt)]

/-- **A flush appends zero bits up to the next byte boundary.** -/
theorem bits_flush (h : p.pending < 8) : p.flush.bits = padded p.bits := by
  have hlength : p.bits.length % 8 = p.pending := by
    rw [length_bits]
    omega
  rw [padded, hlength]
  by_cases hzero : p.pending = 0
  · rw [flush, if_pos hzero, hzero]
    exact (List.append_nil _).symm
  · have hbyte := low_flushed p.acc (Nat.pos_of_ne_zero hzero) h
    have hcount : (8 - p.pending) % 8 = 8 - p.pending := by omega
    have hempty : low (0 : UInt8).toNat 0 = [] := rfl
    rw [flush, if_neg hzero, hcount]
    simp only [Packer.bits, Array.toList_push, List.flatMap_append, List.flatMap_singleton, hbyte,
      hempty, List.append_nil, List.append_assoc]

/-! ### The invariant -/

/-- The packer was started with some bytes and has been given a bit string since. -/
structure Holds (p : Packer) (before : List UInt8) (bits : List Bool) : Prop where
  /-- The bit string of the packer. -/
  bits_eq : p.bits = fromBytes before ++ bits
  /-- A full byte does not wait. -/
  pending_lt : p.pending < 8

theorem holds_ofBytes (before : Array UInt8) : (ofBytes before).Holds before.toList [] where
  bits_eq := rfl
  pending_lt := Nat.zero_lt_succ 7

namespace Holds

theorem apply (h : p.Holds before bits) (call : PackerCall) :
    (p.apply call).Holds before (call.extend bits) := by
  cases call with
  | write value count =>
    obtain ⟨hbits, hpending⟩ := bits_write h.pending_lt value count
    refine ⟨?_, hpending⟩
    rw [Packer.apply, hbits, h.bits_eq, List.append_assoc]
    rfl
  | flush =>
    refine ⟨?_, ?_⟩
    · have hwhole : (fromBytes before).length % 8 = 0 := by
        rw [length_fromBytes]
        omega
      rw [Packer.apply, bits_flush h.pending_lt, h.bits_eq, padded_append hwhole]
      rfl
    · rw [Packer.apply, pending_flush]
      exact Nat.zero_lt_succ 7

/-- What a packer holds after any calls. -/
theorem applyAll (h : p.Holds before bits) (calls : List PackerCall) :
    (p.applyAll calls).Holds before (calls.foldl PackerCall.extend bits) := by
  induction calls generalizing p bits with
  | nil => exact h
  | cons call calls ih => exact ih (h.apply call)

/-- The waiting bits are those since the last byte boundary. -/
theorem pending_eq (h : p.Holds before bits) : p.pending = bits.length % 8 := by
  have hlength := p.length_bits
  have hpending := h.pending_lt
  rw [h.bits_eq, List.length_append, length_fromBytes] at hlength
  omega

/-- The completed bytes are those of the bit string. -/
theorem bytes_eq (h : p.Holds before bits) : p.bytes.toList = before ++ toBytes bits := by
  have hbits : fromBytes p.bytes.toList ++ low p.acc.toNat p.pending = fromBytes before ++ bits :=
    h.bits_eq
  have hwaiting : toBytes (low p.acc.toNat p.pending) = [] :=
    toBytes_of_length_lt (by rw [length_low]; exact h.pending_lt)
  calc p.bytes.toList
      = p.bytes.toList ++ toBytes (low p.acc.toNat p.pending) := by rw [hwaiting, List.append_nil]
    _ = toBytes (fromBytes before ++ bits) := by rw [← toBytes_fromBytes_append, hbits]
    _ = before ++ toBytes bits := toBytes_fromBytes_append before bits

end Holds

/-- **A packer packs the exact bit string.**  Whatever bytes it is started with and whatever calls
it is given, it finishes with those bytes, followed by the bytes of the bit string that the calls
spell, with zero bits up to the next byte boundary.  So far the complete bytes of the bit string
have been appended, and the bits since the last byte boundary, fewer than eight, are waiting.
Flushing twice is the same as flushing once. -/
theorem finish_packs_bitString (before : Array UInt8) (calls : List PackerCall) :
    let p := (ofBytes before).applyAll calls
    let bits := PackerCall.bitString calls
    p.finish.toList = before.toList ++ toBytes (padded bits) ∧
      p.bytes.toList = before.toList ++ toBytes bits ∧
      p.pending = bits.length % 8 ∧ p.pending < 8 ∧ p.flush.flush = p.flush := by
  have h : ((ofBytes before).applyAll calls).Holds before.toList (PackerCall.bitString calls) :=
    (holds_ofBytes before).applyAll calls
  exact ⟨(h.apply .flush).bytes_eq, h.bytes_eq, h.pending_eq, h.pending_lt, flush_flush _⟩

example : ((ofBytes #[]).applyAll [.write 0b101 3, .write 0b11111 5, .write 0xA 4]).finish =
    #[0b10111111, 0b10100000] := by decide

end Packer

end AlphaMachine
