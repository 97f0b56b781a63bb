import AlphaMachine.Block.Lowering
import AlphaMachine.Isa.DispatchTable

/-!
# The translations of the machine

The translator has a table of its own, built like that of the operations: it says for every opcode
and function code how the translator deals with the instruction.  Most integer and memory
operations have host code; byte manipulation, locked accesses, PAL calls and most conversions run
through the `interpret` helper.

* `Translation.code?` is the code of an instruction;
* `Translation.leaves` tells the translator whether to stop behind it.
-/

namespace AlphaMachine

/-! ### Conditions of instruction groups -/

/-- The condition of a conditional move with this function code. -/
def Condition.ofFunction : Nat → Condition
  | 0x14 => .lowSet
  | 0x16 => .lowClear
  | 0x24 => .eq
  | 0x26 => .ne
  | 0x44 => .lt
  | 0x46 => .ge
  | 0x64 => .le
  | _ => .gt

/-- The condition of an integer branch with this opcode. -/
def Condition.ofOpcode : Opcode → Condition
  | .blbc => .lowClear
  | .blbs => .lowSet
  | .beq => .eq
  | .bne => .ne
  | .blt => .lt
  | .ble => .le
  | .bgt => .gt
  | _ => .ge

/-- The condition of a floating branch with this opcode. -/
def FloatCondition.ofOpcode : Opcode → FloatCondition
  | .fbeq => .eq
  | .fbne => .ne
  | .fbgt => .gt
  | .fble => .le
  | .fblt => .lt
  | _ => .ge

/-! ### Translations -/

/-- How the translator deals with an instruction. -/
inductive Translation where
  /-- By the host code of an operation. -/
  | native (op : Operation)
  /-- By a conditional move; the function code gives the condition. -/
  | moveIf
  /-- By a branch on an integer register; the opcode gives the condition. -/
  | onInt
  /-- By a branch on a floating register; the opcode gives the condition. -/
  | onFloat
  /-- By a call of the interpreter. -/
  | interpret
  deriving DecidableEq

namespace Translation

/-- The code for the instruction `word` at `pc`, unless the word has not the format that the
translation asks for. -/
def code? (t : Translation) (pc : UInt64) (word : UInt32) : Option Block.Code :=
  let i := Instruction.decode word
  match t, i with
  | .native op, i => op.lower? pc i
  | .moveIf, .operate _ ra rb function rc =>
    (OperateOp.moveIf (.ofFunction function)).lower? pc ra rb rc
  | .onInt, .branch opcode ra displacement =>
    some ((BranchOp.onInt (.ofOpcode opcode)).lower pc ra displacement)
  | .onFloat, .branch opcode ra displacement =>
    some ((BranchOp.onFloat (.ofOpcode opcode)).lower pc ra displacement)
  | .interpret, i => some (Block.interpret pc word i.endsBlock)
  | _, _ => none

/-- Whether the code leaves the block in any case, so that none may follow. -/
def leaves (t : Translation) (word : UInt32) : Bool :=
  match t with
  | .native (.branch _) | .native (.memory .jump) | .onInt | .onFloat => true
  | .native _ | .moveIf => false
  | .interpret => (Instruction.decode word).endsBlock

/-! ### Registrations -/

open Registration

/-- Sums, differences and compares. -/
def integerArithmetic : List (Registration Translation) :=
  [function .intA 0x00 (native (.operate (.arith .add 0 .long))),
   function .intA 0x02 (native (.operate (.arith .add 2 .long))),
   function .intA 0x12 (native (.operate (.arith .add 3 .long))),
   function .intA 0x09 (native (.operate (.arith .sub 0 .long))),
   function .intA 0x0B (native (.operate (.arith .sub 2 .long))),
   function .intA 0x1B (native (.operate (.arith .sub 3 .long))),
   function .intA 0x20 (native (.operate (.arith .add 0 .quad))),
   function .intA 0x22 (native (.operate (.arith .add 2 .quad))),
   function .intA 0x32 (native (.operate (.arith .add 3 .quad))),
   function .intA 0x29 (native (.operate (.arith .sub 0 .quad))),
   function .intA 0x2B (native (.operate (.arith .sub 2 .quad))),
   function .intA 0x3B (native (.operate (.arith .sub 3 .quad))),
   function .intA 0x40 (native (.operate (.arithChecked .add .long))),
   function .intA 0x49 (native (.operate (.arithChecked .sub .long))),
   function .intA 0x60 (native (.operate (.arithChecked .add .quad))),
   function .intA 0x69 (native (.operate (.arithChecked .sub .quad))),
   function .intA 0x2D (native (.operate (.compare .eq))),
   function .intA 0x4D (native (.operate (.compare .lt))),
   function .intA 0x6D (native (.operate (.compare .le))),
   function .intA 0x1D (native (.operate (.compare .ult))),
   function .intA 0x3D (native (.operate (.compare .ule))),
   function .intA 0x0F (native (.operate .compareBytes))]

/-- Bitwise operations, conditional moves and identification. -/
def integerLogical : List (Registration Translation) :=
  [function .intL 0x00 (native (.operate (.logic .and false))),
   function .intL 0x08 (native (.operate (.logic .and true))),
   function .intL 0x20 (native (.operate (.logic .or false))),
   function .intL 0x28 (native (.operate (.logic .or true))),
   function .intL 0x40 (native (.operate (.logic .xor false))),
   function .intL 0x48 (native (.operate (.logic .xor true)))] ++
  functions .intL [0x24, 0x26, 0x44, 0x46, 0x64, 0x66, 0x14, 0x16] moveIf ++
  [function .intL 0x61 (native (.operate .featureMask)),
   function .intL 0x6C (native (.operate .implementationVersion))]

/-- Shifts; byte manipulation is left to the interpreter. -/
def integerShift : List (Registration Translation) :=
  [function .intS 0x39 (native (.operate (.shift .left))),
   function .intS 0x34 (native (.operate (.shift .right))),
   function .intS 0x3C (native (.operate (.shift .rightArith)))] ++
  functions .intS
    [0x30, 0x31, 0x06, 0x16, 0x26, 0x36, 0x5A, 0x6A, 0x7A, 0x0B, 0x1B, 0x2B, 0x3B, 0x57, 0x67,
     0x77, 0x02, 0x12, 0x22, 0x32, 0x52, 0x62, 0x72] interpret

/-- Products. -/
def integerMultiply : List (Registration Translation) :=
  [function .intM 0x00 (native (.operate (.multiply .long))),
   function .intM 0x20 (native (.operate (.multiply .quad))),
   function .intM 0x30 (native (.operate .multiplyHigh)),
   function .intM 0x40 (native (.operate (.multiplyChecked .long))),
   function .intM 0x60 (native (.operate (.multiplyChecked .quad)))]

/-- Extensions; counts are left to the interpreter. -/
def integerCount : List (Registration Translation) :=
  [function .fpti 0x00 (native (.operate .signExtendByte)),
   function .fpti 0x01 (native (.operate .signExtendWord))] ++
  functions .fpti [0x30, 0x32, 0x33] interpret

/-- Loads, stores and address arithmetic; locked accesses and the single format are left to the
interpreter. -/
def memoryAccess : List (Registration Translation) :=
  [primary .lda (native (.memory .loadAddress)),
   primary .ldah (native (.memory .loadAddressHigh)),
   primary .ldbu (native (.memory (.load .byte))),
   primary .ldwu (native (.memory (.load .word))),
   primary .ldl (native (.memory (.load .long))),
   primary .ldq (native (.memory (.load .quad))),
   primary .ldqU (native (.memory .loadUnaligned)),
   primary .ldlL interpret,
   primary .ldqL interpret,
   primary .stb (native (.memory (.store .byte))),
   primary .stw (native (.memory (.store .word))),
   primary .stl (native (.memory (.store .long))),
   primary .stq (native (.memory (.store .quad))),
   primary .stqU (native (.memory .storeUnaligned)),
   primary .stlC interpret,
   primary .stqC interpret,
   primary .lds interpret,
   primary .ldt (native (.memory (.floatLoad .double))),
   primary .sts interpret,
   primary .stt (native (.memory (.floatStore .double)))]

/-- Branches. -/
def branches : List (Registration Translation) :=
  [primary .br (native (.branch .link)),
   primary .bsr (native (.branch .link))] ++
  [Opcode.beq, .bne, .blt, .ble, .bgt, .bge, .blbc, .blbs].map (primary · onInt) ++
  [Opcode.fbeq, .fbne, .fblt, .fble, .fbgt, .fbge].map (primary · onFloat)

/-- Jumps, barriers, counters, PAL calls and hardware access. -/
def control : List (Registration Translation) :=
  functions .jsr [0, 1, 2, 3] (native (.memory .jump)) ++
  functions .misc [0x00, 0x01, 0x10, 0x11, 0x20, 0x28, 0x3A, 0x3E] (native (.memory .barrier)) ++
  functions .misc [0x30, 0x38, 0x3C] interpret ++
  functions .callPal [0x00, 0x80, 0x81, 0x83, 0x86, 0x9E, 0x9F, 0xAA] interpret ++
  [Opcode.hwMfpr, .hwLd, .hwMtpr, .hwRei, .hwSt].map (primary · interpret)

/-- Floating arithmetic, sign copies and moves between the register files; compares, conversions,
conditional moves and the control register are left to the interpreter. -/
def floating : List (Registration Translation) :=
  [function .itfp 0x004 interpret,
   function .itfp 0x024 (native (.float (.moveFromInt .double))),
   function .itfp 0x08B (native (.float (.sqrt .single))),
   function .itfp 0x0AB (native (.float (.sqrt .double))),
   function .fltI 0x080 (native (.float (.arith .add .single))),
   function .fltI 0x081 (native (.float (.arith .sub .single))),
   function .fltI 0x082 (native (.float (.arith .mul .single))),
   function .fltI 0x083 (native (.float (.arith .div .single))),
   function .fltI 0x0A0 (native (.float (.arith .add .double))),
   function .fltI 0x0A1 (native (.float (.arith .sub .double))),
   function .fltI 0x0A2 (native (.float (.arith .mul .double))),
   function .fltI 0x0A3 (native (.float (.arith .div .double)))] ++
  functions .fltI [0x0A4, 0x0A5, 0x0A6, 0x0A7, 0x0AC, 0x0AF, 0x0BC, 0x0BE] interpret ++
  [function .fltL 0x020 (native (.float (.copySign .sign))),
   function .fltL 0x021 (native (.float (.copySign .negatedSign))),
   function .fltL 0x022 (native (.float (.copySign .signExponent)))] ++
  functions .fltL [0x010, 0x024, 0x025, 0x02A, 0x02B, 0x02C, 0x02D, 0x02E, 0x02F, 0x030]
    interpret ++
  [function .fpti 0x70 (native (.operate (.moveFromFloat .double))),
   function .fpti 0x78 interpret]

/-- Every translation with its opcode and function code. -/
def registrations : List (Registration Translation) :=
  integerArithmetic ++ integerLogical ++ integerShift ++ integerMultiply ++ integerCount ++
  memoryAccess ++ branches ++ control ++ floating

/-- The table of translations. -/
def table : DispatchTable Translation :=
  (DispatchTable.build registrations).toOption.getD .empty

/-- The translation of an instruction, if it has one. -/
def ofInstruction? (i : Instruction) : Option Translation := table.lookup i

end Translation

namespace Block

/-- The code of the instruction `word` at `pc`, if the translator can deal with it. -/
def lowerWord? (pc : UInt64) (word : UInt32) : Option Code :=
  (Translation.ofInstruction? (.decode word)).bind (·.code? pc word)

/-- Whether the code of the instruction `word` leaves the block in any case. -/
def leavesAt (word : UInt32) : Bool :=
  (Translation.ofInstruction? (.decode word)).any (·.leaves word)

end Block

end AlphaMachine
