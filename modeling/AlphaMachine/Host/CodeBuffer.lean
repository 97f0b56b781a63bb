import AlphaMachine.Bits.Bytes

/-!
# Code buffers

An append-only byte string that holds one unit of code, and its executable form.  The length of a
buffer is the offset of the next byte.
-/

namespace AlphaMachine

namespace Host

/-- The bytes of one unit of code. -/
structure CodeBuffer where
  /-- The bytes. -/
  bytes : Array UInt8
  deriving DecidableEq

namespace CodeBuffer

/-- The buffer without bytes. -/
def empty : CodeBuffer := ⟨#[]⟩

/-- The length in bytes. -/
def size (buf : CodeBuffer) : Nat := buf.bytes.size

/-- Append bytes. -/
def append (buf : CodeBuffer) (bytes : List UInt8) : CodeBuffer := ⟨buf.bytes ++ bytes⟩

/-- Append one byte. -/
def pushByte (buf : CodeBuffer) (b : UInt8) : CodeBuffer := ⟨buf.bytes.push b⟩

/-- Append four bytes, the lowest first. -/
def pushDword (buf : CodeBuffer) (value : UInt32) : CodeBuffer :=
  buf.append (Bytes.ofWord value.toUInt64 4)

/-- Append eight bytes, the lowest first. -/
def pushQword (buf : CodeBuffer) (value : UInt64) : CodeBuffer := buf.append (Bytes.ofWord value 8)

/-- Overwrite four bytes at `offset`, the lowest first. -/
def patchDword (buf : CodeBuffer) (offset : Nat) (value : UInt32) : CodeBuffer :=
  ⟨Bytes.put buf.bytes offset (Bytes.ofWord value.toUInt64 4)⟩

end CodeBuffer

/-- Code that can be run; it is never empty. -/
structure ExecutableCode where
  /-- The bytes. -/
  bytes : Array UInt8
  /-- There is something to run. -/
  nonempty : 0 < bytes.size

/-- The executable form of a buffer, unless the buffer is empty. -/
def ExecutableCode.ofBuffer? (buf : CodeBuffer) : Option ExecutableCode :=
  if h : 0 < buf.bytes.size then some ⟨buf.bytes, h⟩ else none

end Host

end AlphaMachine
