import AlphaMachine.Bits.Bytes
import AlphaMachine.Bits.Packer
import AlphaMachine.Isa.Instruction

/-!
# Building instruction words

Each format has a builder that packs its fields in the order in which they stand in the word.
Every field is checked before it is packed: a register above 31, a function wider than its field
or a displacement outside its signed range is an error that names the first such field, never a
truncated word.  So are fields that do not add up to a word.

`Program` collects words into a code image.
-/

namespace AlphaMachine

/-- Why a word cannot be built. -/
inductive AsmError where
  /-- A register number above 31. -/
  | register (index : Nat)
  /-- An unsigned field that is too wide. -/
  | unsigned (field : String) (value width : Nat)
  /-- A signed field outside its range. -/
  | signed (field : String) (value : Int) (width : Nat)
  /-- Fields that do not make up a word. -/
  | layout (total : Nat)
  deriving DecidableEq

namespace AsmError

/-- The diagnostic. -/
def message : AsmError → String
  | .register index => s!"register {index} is out of range"
  | .unsigned field value width =>
    field ++ " " ++ Text.hex value ++ s!" does not fit in {width} bits"
  | .signed field value width => s!"{field} {value} does not fit in {width} signed bits"
  | .layout total => s!"fields add up to {total} bits instead of 32"

end AsmError

namespace Assembly

/-! ### Fields -/

/-- A field of a word: its value and its width in bits. -/
abbrev Field := Nat × Nat

/-- A register field. -/
def reg (index : Nat) : Except AsmError Field :=
  if index < 32 then .ok (index, 5) else .error (.register index)

/-- An unsigned field of `width` bits. -/
def unsigned (field : String) (value width : Nat) : Except AsmError Field :=
  if value < 1 <<< width then .ok (value, width) else .error (.unsigned field value width)

/-- A signed field of `width` bits in two's complement. -/
def signed (field : String) (value : Int) (width : Nat) : Except AsmError Field :=
  let half : Nat := 1 <<< (width - 1)
  if -half ≤ value ∧ value < half then .ok ((value % (1 <<< width : Nat)).toNat, width)
  else .error (.signed field value width)

/-- The opcode field. -/
def opcode (op : Opcode) : Field := (op.bits, 6)

/-- The number that a byte string spells, the first byte most significant. -/
def bigEndian (bytes : Array UInt8) : Nat := bytes.foldl (fun n b => n * 256 + b.toNat) 0

/-- The number of bits of a list of fields. -/
def width (fields : List Field) : Nat := fields.foldr (fun field total => field.2 + total) 0

/-- The word whose fields, from the top down, are `fields`, if they make up a word. -/
def pack (fields : List Field) : Except AsmError UInt32 :=
  let total := width fields
  let bytes := (Packer.empty.writeFields fields).finish
  if total = 32 ∧ bytes.size = 4 then .ok (.ofNat (bigEndian bytes)) else .error (.layout total)

/-! ### Formats -/

/-- Integer operate with a register as second operand. -/
def operate (op : Opcode) (ra rb function rc : Nat) : Except AsmError UInt32 := do
  pack [opcode op, ← reg ra, ← reg rb, (0, 3), (0, 1),
    ← unsigned "function" function 7, ← reg rc]

/-- Integer operate with a literal as second operand. -/
def operateLiteral (op : Opcode) (ra : Nat) (literal : UInt8) (function rc : Nat) :
    Except AsmError UInt32 := do
  pack [opcode op, ← reg ra, (literal.toNat, 8), (1, 1),
    ← unsigned "function" function 7, ← reg rc]

/-- Floating operate. -/
def floatOperate (op : Opcode) (fa fb function fc : Nat) : Except AsmError UInt32 := do
  pack [opcode op, ← reg fa, ← reg fb, ← unsigned "function" function 11, ← reg fc]

/-- Memory format. -/
def memory (op : Opcode) (ra rb : Nat) (displacement : Int16) : Except AsmError UInt32 := do
  pack [opcode op, ← reg ra, ← reg rb, (displacement.toUInt16.toNat, 16)]

/-- The barrier group, whose function is in displacement bits 15 to 10. -/
def misc (function ra rb : Nat) : Except AsmError UInt32 := do
  pack [opcode .misc, ← reg ra, ← reg rb, ← unsigned "function" function 6, (0, 10)]

/-- The jump group with a zero hint. -/
def jump (function ra rb : Nat) : Except AsmError UInt32 := do
  pack [opcode .jsr, ← reg ra, ← reg rb, ← unsigned "function" function 2, (0, 14)]

/-- Branch format; the displacement counts instructions from the following one. -/
def branch (op : Opcode) (ra : Nat) (displacement : Int) : Except AsmError UInt32 := do
  pack [opcode op, ← reg ra, ← signed "displacement" displacement 21]

/-- A PAL call. -/
def callPal (function : Nat) : Except AsmError UInt32 := do
  pack [opcode .callPal, ← unsigned "function" function 26]

/-! ### Frequent instructions -/

/-- `rc = ra + rb`. -/
def addq (ra rb rc : Nat) : Except AsmError UInt32 := operate .intA ra rb 0x20 rc

/-- `rc = ra + literal`. -/
def addqLiteral (ra : Nat) (literal : UInt8) (rc : Nat) : Except AsmError UInt32 :=
  operateLiteral .intA ra literal 0x20 rc

/-- `rc = ra - literal`. -/
def subqLiteral (ra : Nat) (literal : UInt8) (rc : Nat) : Except AsmError UInt32 :=
  operateLiteral .intA ra literal 0x29 rc

/-- `rc = ra | rb`, the register move. -/
def bis (ra rb rc : Nat) : Except AsmError UInt32 := operate .intL ra rb 0x20 rc

/-- The instruction without effect: `bis r31, r31, r31`. -/
def nop : UInt32 := 0x47FF041F

/-- Load an address. -/
def lda (ra rb : Nat) (displacement : Int16) : Except AsmError UInt32 :=
  memory .lda ra rb displacement

/-- Load a quadword. -/
def ldq (ra rb : Nat) (displacement : Int16) : Except AsmError UInt32 :=
  memory .ldq ra rb displacement

/-- Store a quadword. -/
def stq (ra rb : Nat) (displacement : Int16) : Except AsmError UInt32 :=
  memory .stq ra rb displacement

/-- Branch, linking `ra`. -/
def br (ra : Nat) (displacement : Int) : Except AsmError UInt32 := branch .br ra displacement

/-- Branch when `ra` is not zero. -/
def bne (ra : Nat) (displacement : Int) : Except AsmError UInt32 := branch .bne ra displacement

/-- Stop the machine. -/
def halt : UInt32 := 0

end Assembly

/-! ### Programs -/

/-- A straight run of instruction words. -/
structure Program where
  /-- The words in order. -/
  words : Array UInt32
  deriving DecidableEq

namespace Program

/-- The program without instructions. -/
def empty : Program := ⟨#[]⟩

/-- Append a word. -/
def push (p : Program) (word : UInt32) : Program := ⟨p.words.push word⟩

/-- Append the word of a builder: what comes back, and the program afterwards.  A failed builder
adds nothing. -/
def emit (p : Program) : Except AsmError UInt32 → Except AsmError Unit × Program
  | .ok word => (.ok (), p.push word)
  | .error error => (.error error, p)

/-- Append several words. -/
def append (p : Program) (words : List UInt32) : Program := ⟨p.words ++ words⟩

/-- Byte offset of the next instruction. -/
def offset (p : Program) : Nat := 4 * p.words.size

/-- The little-endian code image. -/
def bytes (p : Program) : List UInt8 :=
  p.words.toList.flatMap fun word => Bytes.ofWord word.toUInt64 4

end Program

end AlphaMachine
