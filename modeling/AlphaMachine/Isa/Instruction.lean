import AlphaMachine.Isa.Mnemonic
import AlphaMachine.Text.Hex

/-!
# Instructions

An instruction word decodes into one of five shapes.  Decoding is total: a reserved opcode or an
unknown function code still gives a well-formed instruction, and whether it can be executed is
decided when its operation is looked up.

* `Instruction.decode` reads the fields of a word;
* `Instruction.functionCode` is the code that selects the operation within an opcode;
* `Instruction.disassemble` writes assembler text with branch targets resolved.
-/

namespace AlphaMachine

/-- The number of a register in either file. -/
abbrev Reg := Fin 32

/-- Numerals name registers. -/
instance (priority := high) Reg.instNeZero : @NeZero Nat Zero.ofOfNat0 32 := ⟨by decide⟩

/-- Register 31 reads as zero and ignores writes. -/
abbrev Reg.zero : Reg := 31

/-! ### Fields -/

/-- The `width` bits of `word` from bit `lsb` upwards. -/
def bitField (word : UInt32) (lsb width : Nat) : Nat := (word.toNat >>> lsb) % (1 <<< width)

/-- The low `width` bits of `value` read as a two's-complement number. -/
def signedField (value width : Nat) : Int := Int.bmod value (1 <<< width)

/-- The register number in the five bits from `lsb` upwards. -/
def regField (word : UInt32) (lsb : Nat) : Reg := Fin.ofNat 32 (word.toNat >>> lsb)

/-- The address that a branch at `pc` reaches: the displacement counts instructions from the
following one. -/
def branchTarget (pc : UInt64) (displacement : Int) : UInt64 :=
  pc + 4 + UInt64.ofInt (4 * displacement)

/-! ### Shapes -/

/-- The second source operand of an integer operate instruction. -/
inductive Operand where
  /-- A register. -/
  | register (r : Reg)
  /-- An unsigned eight-bit constant. -/
  | literal (value : UInt8)
  deriving DecidableEq

/-- A decoded instruction. -/
inductive Instruction where
  /-- Integer operate: `rc` receives a function of `ra` and the operand `rb`. -/
  | operate (opcode : Opcode) (ra : Reg) (rb : Operand) (function : Nat) (rc : Reg)
  /-- Floating operate with its 11-bit function. -/
  | floatOperate (opcode : Opcode) (fa fb : Reg) (function : Nat) (fc : Reg)
  /-- Loads, stores, address arithmetic, barriers and jumps. -/
  | memory (opcode : Opcode) (ra rb : Reg) (displacement : Int16)
  /-- Branches relative to the program counter. -/
  | branch (opcode : Opcode) (ra : Reg) (displacement : Int)
  /-- Calls into the privileged architecture library. -/
  | pal (function : Nat)
  deriving DecidableEq

namespace Instruction

/-- Bytes in an instruction word. -/
def size : Nat := 4

/-- The fields of an operate word: floating opcodes use bits 15 to 12 as part of the function,
the others select a literal with bit 12. -/
def decodeOperate (word : UInt32) (opcode : Opcode) : Instruction :=
  if opcode.isFloatOperate then
    .floatOperate opcode (regField word 21) (regField word 16) (bitField word 5 11)
      (regField word 0)
  else
    let rb :=
      if bitField word 12 1 = 1 then Operand.literal (UInt8.ofNat (bitField word 13 8))
      else Operand.register (regField word 16)
    .operate opcode (regField word 21) rb (bitField word 5 7) (regField word 0)

/-- The instruction that a word stands for. -/
def decode (word : UInt32) : Instruction :=
  let opcode := Opcode.ofBits (bitField word 26 6)
  match opcode.format with
  | .operate => decodeOperate word opcode
  | .memory =>
    .memory opcode (regField word 21) (regField word 16) (Int16.ofNat (bitField word 0 16))
  | .branch => .branch opcode (regField word 21) (signedField (bitField word 0 21) 21)
  | .pal => .pal (bitField word 0 26)

/-- The primary opcode. -/
def opcode : Instruction → Opcode
  | .operate op .. | .floatOperate op .. | .memory op .. | .branch op .. => op
  | .pal _ => .callPal

/-- The code that selects an operation within the opcode: the function of operate and PAL
instructions, displacement bits 15 to 10 of the barrier group, bits 15 and 14 of the jump
group. -/
def functionCode : Instruction → Option Nat
  | .operate _ _ _ function _ | .floatOperate _ _ _ function _ | .pal function => some function
  | .memory .misc _ _ displacement => some (displacement.toUInt16.toNat >>> 10)
  | .memory .jsr _ _ displacement => some (displacement.toUInt16.toNat >>> 14)
  | .memory .. | .branch .. => none

/-- Whether execution may leave the straight line after this instruction. -/
def endsBlock (i : Instruction) : Bool := i.opcode.endsBlock

/-- The target of a branch at `pc`. -/
def branchTarget? (i : Instruction) (pc : UInt64) : Option UInt64 :=
  match i with
  | .branch _ _ displacement => some (branchTarget pc displacement)
  | _ => none

/-- The assembler name, when the encoding names a known operation. -/
def mnemonic? (i : Instruction) : Option String := i.opcode.mnemonic? i.functionCode

/-! ### Text -/

/-- The letter of the register file that `ra` of a memory or branch instruction refers to. -/
def fileLetter : Opcode → String
  | .ldf | .ldg | .lds | .ldt | .stf | .stg | .sts | .stt
  | .fbeq | .fblt | .fble | .fbne | .fbge | .fbgt => "f"
  | _ => "r"

/-- The operands as text, a branch displacement in bytes from the instruction itself. -/
def operands : Instruction → String
  | .floatOperate _ fa fb _ fc => s!"f{fa}, f{fb}, f{fc}"
  | .operate _ ra (.register rb) _ rc => s!"r{ra}, r{rb}, r{rc}"
  | .operate _ ra (.literal value) _ rc => s!"r{ra}, #{value}, r{rc}"
  | .memory .misc ra _ _ => s!"r{ra}"
  | .memory .jsr ra rb _ => s!"r{ra}, (r{rb})"
  | .memory op ra rb displacement =>
    fileLetter op ++ s!"{ra}, " ++ toString displacement.toInt ++ s!"(r{rb})"
  | .branch op ra displacement =>
    fileLetter op ++ s!"{ra}, ." ++ Text.signed (4 + 4 * displacement)
  | .pal _ => ""

/-- Assembler text of a word; a word without a name is shown as data. -/
def text (word : UInt32) : String :=
  let i := decode word
  match i.mnemonic?, i with
  | none, _ => ".long " ++ Text.hexPadded 8 word.toNat
  | some name, .pal _ => "call_pal " ++ name
  | some name, _ => name ++ " " ++ i.operands

/-- Assembler text of a word at `pc`, with the target of a branch instead of its displacement. -/
def disassemble (word : UInt32) (pc : UInt64) : String :=
  match decode word with
  | .branch op ra displacement =>
    match op.primaryName? with
    | some name =>
      name ++ " " ++ fileLetter op ++ s!"{ra}, " ++ Text.hex (branchTarget pc displacement).toNat
    | none => text word
  | _ => text word

/-! ### Instruction streams -/

/-- A byte string whose length is not a whole number of instruction words. -/
structure UnalignedLength where
  /-- The length in bytes. -/
  length : Nat
  deriving DecidableEq

/-- The diagnostic for a byte string of the wrong length. -/
def UnalignedLength.message (e : UnalignedLength) : String :=
  s!"code length = {e.length} which is not a multiple of 4"

/-- The little-endian word made of four bytes. -/
def wordOfBytes (b0 b1 b2 b3 : UInt8) : UInt32 :=
  b0.toUInt32 ||| b1.toUInt32 <<< 8 ||| b2.toUInt32 <<< 16 ||| b3.toUInt32 <<< 24

/-- The words of a byte string, four bytes each; an incomplete tail is dropped. -/
def wordsOfBytes : List UInt8 → List UInt32
  | b0 :: b1 :: b2 :: b3 :: rest => wordOfBytes b0 b1 b2 b3 :: wordsOfBytes rest
  | _ => []

/-- Each word paired with its address, the first at `base`. -/
def placeWords (base : UInt64) : List UInt32 → List (UInt64 × UInt32)
  | [] => []
  | word :: rest => (base, word) :: placeWords (base + 4) rest

/-- The words of a code image with their addresses. -/
def readCode (bytes : List UInt8) (base : UInt64) :
    Except UnalignedLength (List (UInt64 × UInt32)) :=
  if bytes.length % size = 0 then .ok (placeWords base (wordsOfBytes bytes))
  else .error ⟨bytes.length⟩

end Instruction

end AlphaMachine
