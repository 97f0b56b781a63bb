/-!
# Packing bit fields into bytes

A packer appends fields of any width to a byte string, most significant bit first.  Bits
accumulate until eight of them make a byte; `flush` fills the last byte with zero bits.

* `Packer.write` appends the low bits of a number;
* `Packer.finish` is the finished byte string.
-/

namespace AlphaMachine

/-- Completed bytes and the bits waiting for a full byte. -/
structure Packer where
  /-- The completed bytes. -/
  bytes : Array UInt8
  /-- The waiting bits, the last one lowest. -/
  acc : UInt8
  /-- How many bits are waiting. -/
  pending : Nat

namespace Packer

/-- A packer that continues after `bytes`. -/
def ofBytes (bytes : Array UInt8) : Packer := ⟨bytes, 0, 0⟩

/-- A packer without any bits. -/
def empty : Packer := ofBytes #[]

/-- Append one bit. -/
def writeBit (p : Packer) (bit : Bool) : Packer :=
  let acc := p.acc <<< 1 ||| bit.toUInt8
  if p.pending + 1 = 8 then ⟨p.bytes.push acc, 0, 0⟩ else ⟨p.bytes, acc, p.pending + 1⟩

/-- Append the low `count` bits of `value`, the most significant first. -/
def write (p : Packer) (value : Nat) : Nat → Packer
  | 0 => p
  | count + 1 => (p.writeBit (value.testBit count)).write value count

/-- Complete the last byte with zero bits. -/
def flush (p : Packer) : Packer :=
  if p.pending = 0 then p
  else ⟨p.bytes.push (p.acc <<< (8 - p.pending).toUInt8), 0, 0⟩

/-- The bytes after a last flush. -/
def finish (p : Packer) : Array UInt8 := p.flush.bytes

/-- Append fields given as pairs of a value and a width. -/
def writeFields (p : Packer) (fields : List (Nat × Nat)) : Packer :=
  fields.foldl (fun p field => p.write field.1 field.2) p

end Packer

end AlphaMachine
