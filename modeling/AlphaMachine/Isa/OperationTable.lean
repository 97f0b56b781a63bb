import AlphaMachine.Isa.DispatchTable
import AlphaMachine.Isa.Operation

/-!
# The operations of the machine

The registrations of every operation, family by family, and the table built from them.  The
table is total on the architecture's integer, floating and privileged subsets; words it does not
cover are illegal instructions.
-/

namespace AlphaMachine

namespace Operation

open Registration

/-- Sums, differences and compares. -/
def integerArithmetic : List (Registration Operation) :=
  [.function .intA 0x00 (.operate (.arith .add 0 .long)),
   .function .intA 0x02 (.operate (.arith .add 2 .long)),
   .function .intA 0x12 (.operate (.arith .add 3 .long)),
   .function .intA 0x09 (.operate (.arith .sub 0 .long)),
   .function .intA 0x0B (.operate (.arith .sub 2 .long)),
   .function .intA 0x1B (.operate (.arith .sub 3 .long)),
   .function .intA 0x20 (.operate (.arith .add 0 .quad)),
   .function .intA 0x22 (.operate (.arith .add 2 .quad)),
   .function .intA 0x32 (.operate (.arith .add 3 .quad)),
   .function .intA 0x29 (.operate (.arith .sub 0 .quad)),
   .function .intA 0x2B (.operate (.arith .sub 2 .quad)),
   .function .intA 0x3B (.operate (.arith .sub 3 .quad)),
   .function .intA 0x40 (.operate (.arithChecked .add .long)),
   .function .intA 0x49 (.operate (.arithChecked .sub .long)),
   .function .intA 0x60 (.operate (.arithChecked .add .quad)),
   .function .intA 0x69 (.operate (.arithChecked .sub .quad)),
   .function .intA 0x2D (.operate (.compare .eq)),
   .function .intA 0x4D (.operate (.compare .lt)),
   .function .intA 0x6D (.operate (.compare .le)),
   .function .intA 0x1D (.operate (.compare .ult)),
   .function .intA 0x3D (.operate (.compare .ule)),
   .function .intA 0x0F (.operate .compareBytes)]

/-- Bitwise operations, conditional moves and identification. -/
def integerLogical : List (Registration Operation) :=
  [.function .intL 0x00 (.operate (.logic .and false)),
   .function .intL 0x08 (.operate (.logic .and true)),
   .function .intL 0x20 (.operate (.logic .or false)),
   .function .intL 0x28 (.operate (.logic .or true)),
   .function .intL 0x40 (.operate (.logic .xor false)),
   .function .intL 0x48 (.operate (.logic .xor true)),
   .function .intL 0x24 (.operate (.moveIf .eq)),
   .function .intL 0x26 (.operate (.moveIf .ne)),
   .function .intL 0x44 (.operate (.moveIf .lt)),
   .function .intL 0x46 (.operate (.moveIf .ge)),
   .function .intL 0x64 (.operate (.moveIf .le)),
   .function .intL 0x66 (.operate (.moveIf .gt)),
   .function .intL 0x14 (.operate (.moveIf .lowSet)),
   .function .intL 0x16 (.operate (.moveIf .lowClear)),
   .function .intL 0x61 (.operate .featureMask),
   .function .intL 0x6C (.operate .implementationVersion)]

/-- Shifts and byte manipulation. -/
def integerShift : List (Registration Operation) :=
  [.function .intS 0x39 (.operate (.shift .left)),
   .function .intS 0x34 (.operate (.shift .right)),
   .function .intS 0x3C (.operate (.shift .rightArith)),
   .function .intS 0x30 (.operate .zap),
   .function .intS 0x31 (.operate .zapNot),
   .function .intS 0x06 (.operate (.byteField .extract .low .byte)),
   .function .intS 0x16 (.operate (.byteField .extract .low .word)),
   .function .intS 0x26 (.operate (.byteField .extract .low .long)),
   .function .intS 0x36 (.operate (.byteField .extract .low .quad)),
   .function .intS 0x5A (.operate (.byteField .extract .high .word)),
   .function .intS 0x6A (.operate (.byteField .extract .high .long)),
   .function .intS 0x7A (.operate (.byteField .extract .high .quad)),
   .function .intS 0x0B (.operate (.byteField .insert .low .byte)),
   .function .intS 0x1B (.operate (.byteField .insert .low .word)),
   .function .intS 0x2B (.operate (.byteField .insert .low .long)),
   .function .intS 0x3B (.operate (.byteField .insert .low .quad)),
   .function .intS 0x57 (.operate (.byteField .insert .high .word)),
   .function .intS 0x67 (.operate (.byteField .insert .high .long)),
   .function .intS 0x77 (.operate (.byteField .insert .high .quad)),
   .function .intS 0x02 (.operate (.byteField .mask .low .byte)),
   .function .intS 0x12 (.operate (.byteField .mask .low .word)),
   .function .intS 0x22 (.operate (.byteField .mask .low .long)),
   .function .intS 0x32 (.operate (.byteField .mask .low .quad)),
   .function .intS 0x52 (.operate (.byteField .mask .high .word)),
   .function .intS 0x62 (.operate (.byteField .mask .high .long)),
   .function .intS 0x72 (.operate (.byteField .mask .high .quad))]

/-- Products. -/
def integerMultiply : List (Registration Operation) :=
  [.function .intM 0x00 (.operate (.multiply .long)),
   .function .intM 0x20 (.operate (.multiply .quad)),
   .function .intM 0x30 (.operate .multiplyHigh),
   .function .intM 0x40 (.operate (.multiplyChecked .long)),
   .function .intM 0x60 (.operate (.multiplyChecked .quad))]

/-- Extensions, counts and moves from floating registers. -/
def integerCount : List (Registration Operation) :=
  [.function .fpti 0x00 (.operate .signExtendByte),
   .function .fpti 0x01 (.operate .signExtendWord),
   .function .fpti 0x30 (.operate .countOnes),
   .function .fpti 0x32 (.operate .countLeadingZeros),
   .function .fpti 0x33 (.operate .countTrailingZeros),
   .function .fpti 0x70 (.operate (.moveFromFloat .double)),
   .function .fpti 0x78 (.operate (.moveFromFloat .single))]

/-- Loads, stores, address arithmetic and hardware access. -/
def memoryAccess : List (Registration Operation) :=
  [.primary .lda (.memory .loadAddress),
   .primary .ldah (.memory .loadAddressHigh),
   .primary .ldbu (.memory (.load .byte)),
   .primary .ldwu (.memory (.load .word)),
   .primary .ldl (.memory (.load .long)),
   .primary .ldq (.memory (.load .quad)),
   .primary .ldqU (.memory .loadUnaligned),
   .primary .ldlL (.memory (.loadLocked .long)),
   .primary .ldqL (.memory (.loadLocked .quad)),
   .primary .stb (.memory (.store .byte)),
   .primary .stw (.memory (.store .word)),
   .primary .stl (.memory (.store .long)),
   .primary .stq (.memory (.store .quad)),
   .primary .stqU (.memory .storeUnaligned),
   .primary .stlC (.memory (.storeConditional .long)),
   .primary .stqC (.memory (.storeConditional .quad)),
   .primary .lds (.memory (.floatLoad .single)),
   .primary .ldt (.memory (.floatLoad .double)),
   .primary .sts (.memory (.floatStore .single)),
   .primary .stt (.memory (.floatStore .double)),
   .primary .hwMfpr (.memory .privileged),
   .primary .hwLd (.memory .privileged),
   .primary .hwMtpr (.memory .privileged),
   .primary .hwRei (.memory .privileged),
   .primary .hwSt (.memory .privileged)]

/-- The jump group: its members differ only in their hints. -/
def jumps : List (Registration Operation) :=
  functions .jsr [0, 1, 2, 3] (.memory .jump)

/-- Barriers, hints and counters. -/
def barriers : List (Registration Operation) :=
  functions .misc [0x00, 0x01, 0x10, 0x11, 0x20, 0x28, 0x3A, 0x3E] (memory .barrier) ++
  [function .misc 0x30 (memory .readCycles),
   function .misc 0x38 (memory (.exchangeFlag false)),
   function .misc 0x3C (memory (.exchangeFlag true))]

/-- Branches. -/
def branches : List (Registration Operation) :=
  [.primary .br (.branch .link),
   .primary .bsr (.branch .link),
   .primary .beq (.branch (.onInt .eq)),
   .primary .bne (.branch (.onInt .ne)),
   .primary .blt (.branch (.onInt .lt)),
   .primary .ble (.branch (.onInt .le)),
   .primary .bgt (.branch (.onInt .gt)),
   .primary .bge (.branch (.onInt .ge)),
   .primary .blbc (.branch (.onInt .lowClear)),
   .primary .blbs (.branch (.onInt .lowSet)),
   .primary .fbeq (.branch (.onFloat .eq)),
   .primary .fbne (.branch (.onFloat .ne)),
   .primary .fblt (.branch (.onFloat .lt)),
   .primary .fble (.branch (.onFloat .le)),
   .primary .fbgt (.branch (.onFloat .gt)),
   .primary .fbge (.branch (.onFloat .ge))]

/-- Moves from integer registers and square roots. -/
def integerToFloat : List (Registration Operation) :=
  [.function .itfp 0x004 (.float (.moveFromInt .single)),
   .function .itfp 0x024 (.float (.moveFromInt .double)),
   .function .itfp 0x08B (.float (.sqrt .single)),
   .function .itfp 0x0AB (.float (.sqrt .double))]

/-- IEEE arithmetic, compares and conversions. -/
def floatArithmetic : List (Registration Operation) :=
  [.function .fltI 0x080 (.float (.arith .add .single)),
   .function .fltI 0x081 (.float (.arith .sub .single)),
   .function .fltI 0x082 (.float (.arith .mul .single)),
   .function .fltI 0x083 (.float (.arith .div .single)),
   .function .fltI 0x0A0 (.float (.arith .add .double)),
   .function .fltI 0x0A1 (.float (.arith .sub .double)),
   .function .fltI 0x0A2 (.float (.arith .mul .double)),
   .function .fltI 0x0A3 (.float (.arith .div .double)),
   .function .fltI 0x0A4 (.float (.compare .unordered)),
   .function .fltI 0x0A5 (.float (.compare .eq)),
   .function .fltI 0x0A6 (.float (.compare .lt)),
   .function .fltI 0x0A7 (.float (.compare .le)),
   .function .fltI 0x0AC (.float .roundSingle),
   .function .fltI 0x0AF (.float .toQuad),
   .function .fltI 0x0BC (.float (.ofQuad .single)),
   .function .fltI 0x0BE (.float (.ofQuad .double))]

/-- Sign copies, control register, conditional moves and longword conversions. -/
def floatMoves : List (Registration Operation) :=
  [.function .fltL 0x010 (.float .longToQuad),
   .function .fltL 0x020 (.float (.copySign .sign)),
   .function .fltL 0x021 (.float (.copySign .negatedSign)),
   .function .fltL 0x022 (.float (.copySign .signExponent)),
   .function .fltL 0x024 (.float .writeControl),
   .function .fltL 0x025 (.float .readControl),
   .function .fltL 0x02A (.float (.moveIf .eq)),
   .function .fltL 0x02B (.float (.moveIf .ne)),
   .function .fltL 0x02C (.float (.moveIf .lt)),
   .function .fltL 0x02D (.float (.moveIf .ge)),
   .function .fltL 0x02E (.float (.moveIf .le)),
   .function .fltL 0x02F (.float (.moveIf .gt)),
   .function .fltL 0x030 (.float .quadToLong)]

/-- The PAL calls. -/
def palCalls : List (Registration Operation) :=
  [.function .callPal 0x00 (.pal .halt),
   .function .callPal 0x80 (.pal .breakpoint),
   .function .callPal 0x81 (.pal .breakpoint),
   .function .callPal 0x83 (.pal .systemCall),
   .function .callPal 0x86 (.pal .flushCode),
   .function .callPal 0x9E (.pal .readUnique),
   .function .callPal 0x9F (.pal .writeUnique),
   .function .callPal 0xAA (.pal .generateTrap)]

/-- Every operation with its opcode and function code. -/
def registrations : List (Registration Operation) :=
  integerArithmetic ++ integerLogical ++ integerShift ++ integerMultiply ++ integerCount ++
  memoryAccess ++ jumps ++ barriers ++ branches ++ integerToFloat ++ floatArithmetic ++
  floatMoves ++ palCalls

/-- The table of operations. -/
def table : DispatchTable Operation :=
  (DispatchTable.build registrations).toOption.getD .empty

/-- The operation of an instruction, if it has one. -/
def ofInstruction? (i : Instruction) : Option Operation := table.lookup i

end Operation

end AlphaMachine
