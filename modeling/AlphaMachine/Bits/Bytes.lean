/-!
# Byte strings

Little-endian numbers in byte strings, and reading and overwriting a stretch of a byte array.
-/

namespace AlphaMachine

namespace Bytes

/-- The number that a byte string spells, the first byte least significant. -/
def littleEndian : List UInt8 → Nat
  | [] => 0
  | b :: rest => b.toNat + 256 * littleEndian rest

/-- The low `count` bytes of `value`, the lowest first. -/
def ofWord (value : UInt64) : Nat → List UInt8
  | 0 => []
  | count + 1 => value.toUInt8 :: ofWord (value >>> 8) count

/-- Overwrite the bytes from position `i` on. -/
def put (bytes : Array UInt8) (i : Nat) : List UInt8 → Array UInt8
  | [] => bytes
  | b :: rest => put (bytes.setIfInBounds i b) (i + 1) rest

@[simp]
theorem size_put (bytes : Array UInt8) (i : Nat) (data : List UInt8) :
    (put bytes i data).size = bytes.size := by
  induction data generalizing bytes i with
  | nil => rfl
  | cons b rest ih => simp [put, ih]

/-- The `count` bytes from position `i` on. -/
def slice (bytes : Array UInt8) (i : Nat) : Nat → List UInt8
  | 0 => []
  | count + 1 => bytes.getD i 0 :: slice bytes (i + 1) count

end Bytes

end AlphaMachine
