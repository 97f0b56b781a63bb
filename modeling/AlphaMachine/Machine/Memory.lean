import AlphaMachine.Bits.Bytes
import AlphaMachine.Text.Hex

/-!
# Flat memory

A memory maps the addresses from its base upwards to bytes.  Accesses of 1, 2, 4 or 8 bytes must
be naturally aligned and lie within the mapped range; stores must also avoid the read-only range.
A failed access changes nothing and reports the first rule it breaks, in the order alignment,
protection, mapping.

Whether a store touches the read-only range is told from its address and its end, and the end is a
64-bit sum: that of a store up to the last address is 0, so such a store touches no range.

* `Memory.load` and `Memory.storeFault?`, `Memory.write` are the sized accesses;
* `Memory.loadImage`, `Memory.writeWords` and `Memory.readBytes` move whole byte strings and
  ignore alignment and protection.
-/

namespace AlphaMachine

/-! ### Sizes and faults -/

/-- The size of an access. -/
inductive AccessSize where
  | byte | word | long | quad
  deriving DecidableEq

namespace AccessSize

/-- The number of bytes. -/
def bytes : AccessSize → Nat
  | .byte => 1
  | .word => 2
  | .long => 4
  | .quad => 8

/-- The size with this number of bytes. -/
def ofBytes? : Nat → Option AccessSize
  | 1 => some .byte
  | 2 => some .word
  | 4 => some .long
  | 8 => some .quad
  | _ => none

/-- The value bits that an access of this size covers. -/
def mask (size : AccessSize) : UInt64 := UInt64.ofNat (1 <<< (8 * size.bytes) - 1)

end AccessSize

/-- Why a memory access fails. -/
inductive MemoryFault where
  /-- Some byte is outside the mapped range. -/
  | unmapped (address : UInt64)
  /-- A store into the read-only range. -/
  | protection (address : UInt64)
  /-- The address is not a multiple of the size. -/
  | unaligned (address : UInt64)
  deriving DecidableEq

/-- The diagnostic. -/
def MemoryFault.message : MemoryFault → String
  | .unmapped address => "address " ++ Text.hex address.toNat ++ " is not mapped"
  | .protection address => "access to " ++ Text.hex address.toNat ++ " violates protection"
  | .unaligned address => "address " ++ Text.hex address.toNat ++ " is not naturally aligned"

/-! ### Memory -/

/-- Memory from `base` upwards. -/
structure Memory where
  /-- The first mapped address. -/
  base : UInt64
  /-- The mapped bytes. -/
  bytes : Array UInt8
  /-- Stores must not touch the addresses from the first up to the second. -/
  readOnly : Option (UInt64 × UInt64)
  /-- Fewer bytes than there are addresses. -/
  size_lt : bytes.size < UInt64.size
  deriving DecidableEq

namespace Memory

/-- `size` zero bytes from `base` upwards; the size is a 64-bit number. -/
def zeroed (base : UInt64) (size : Nat) : Memory where
  base := base
  bytes := Array.replicate size.toUInt64.toNat 0
  readOnly := none
  size_lt := by simpa using size.toUInt64.toNat_lt

/-- The number of mapped bytes. -/
def size (mem : Memory) : Nat := mem.bytes.size

/-- Whether the `length` bytes from `address` are all mapped. -/
def maps (mem : Memory) (address : UInt64) (length : Nat) : Bool :=
  mem.base ≤ address && address.toNat - mem.base.toNat + length ≤ mem.size

/-- The position of a mapped address. -/
def index (mem : Memory) (address : UInt64) : Nat := address.toNat - mem.base.toNat

/-- Reject stores into the addresses from `start` up to `stop`. -/
def protect (mem : Memory) (start stop : UInt64) : Memory :=
  { mem with readOnly := some (start, stop) }

/-- Whether a store of `length` bytes at `address` touches the read-only range.  The end of the
store wraps around. -/
def isProtected (mem : Memory) (address : UInt64) (length : Nat) : Bool :=
  match mem.readOnly with
  | none => false
  | some (start, stop) => address < stop && start < address + length.toUInt64

/-! ### Byte strings -/

/-- Copy `data` to `address`, whether or not the range is read-only. -/
def loadImage (mem : Memory) (address : UInt64) (data : List UInt8) :
    Except MemoryFault Memory :=
  if mem.maps address data.length then
    .ok { mem with
      bytes := Bytes.put mem.bytes (mem.index address) data
      size_lt := by simpa using mem.size_lt }
  else .error (.unmapped address)

/-- Write instruction words from `address` on. -/
def writeWords (mem : Memory) (address : UInt64) (words : List UInt32) :
    Except MemoryFault Memory :=
  mem.loadImage address (words.flatMap fun word => Bytes.ofWord word.toUInt64 4)

/-- The `length` bytes from `address` on. -/
def readBytes (mem : Memory) (address : UInt64) (length : Nat) :
    Except MemoryFault (List UInt8) :=
  if mem.maps address length then .ok (Bytes.slice mem.bytes (mem.index address) length)
  else .error (.unmapped address)

/-! ### Sized accesses -/

/-- Whether `address` is a multiple of the access size. -/
def isAligned (address : UInt64) (size : AccessSize) : Bool := address.toNat % size.bytes = 0

/-- Load `size` bytes at `address`, zero-extended. -/
def load (mem : Memory) (address : UInt64) (size : AccessSize) : Except MemoryFault UInt64 :=
  if !isAligned address size then .error (.unaligned address)
  else if !mem.maps address size.bytes then .error (.unmapped address)
  else
    let bytes := Bytes.slice mem.bytes (mem.index address) size.bytes
    .ok (UInt64.ofNat (Bytes.littleEndian bytes))

/-- Why a store of `size` bytes at `address` fails, if it does. -/
def storeFault? (mem : Memory) (address : UInt64) (size : AccessSize) : Option MemoryFault :=
  if !isAligned address size then some (.unaligned address)
  else if mem.isProtected address size.bytes then some (.protection address)
  else if !mem.maps address size.bytes then some (.unmapped address)
  else none

/-- Write the low `size` bytes of `value` at a mapped address. -/
def write (mem : Memory) (address : UInt64) (size : AccessSize) (value : UInt64) : Memory :=
  { mem with
    bytes := Bytes.put mem.bytes (mem.index address) (Bytes.ofWord value size.bytes)
    size_lt := by simpa using mem.size_lt }

/-- Store the low `size` bytes of `value` at `address`. -/
def store (mem : Memory) (address : UInt64) (size : AccessSize) (value : UInt64) :
    Except MemoryFault Memory :=
  match mem.storeFault? address size with
  | some fault => .error fault
  | none => .ok (mem.write address size value)

end Memory

end AlphaMachine
