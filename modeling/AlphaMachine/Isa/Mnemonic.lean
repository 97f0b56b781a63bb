import AlphaMachine.Isa.Opcode

/-!
# Function codes and assembler names

Some opcodes stand for a family of operations told apart by a function code.  The floating
operate families carry an 11-bit code whose low six bits name the operation and whose upper bits
qualify it: bits 10 to 8 are the trap qualifier, bits 7 and 6 the rounding mode.

* `Opcode.qualifiersDefined` says which qualifier bits the architecture defines;
* `Opcode.primaryName?` and `Opcode.functionName?` are the assembler names.
-/

namespace AlphaMachine

namespace Opcode

/-! ### Floating qualifiers -/

/-- The trap qualifiers of IEEE arithmetic: none, `/U`, `/SU` and `/SUI`. -/
def ieeeTrapQualifiers : List Nat := [0b000, 0b001, 0b101, 0b111]

/-- Whether the qualifier bits of `function` are an encoding that the architecture defines for
its operation.  Opcodes without qualifiers accept every code. -/
def qualifiersDefined (op : Opcode) (function : Nat) : Bool :=
  let low := function % 0x40
  let trap := function / 0x100 % 8
  let round := function / 0x40 % 4
  let ieee := ieeeTrapQualifiers.contains trap
  match op with
  | .itfp =>
    if low = 0x04 ∨ low = 0x24 then function = low
    else if low = 0x0B ∨ low = 0x2B then ieee
    else true
  | .fltI =>
    if low ≤ 0x03 ∨ 0x20 ≤ low ∧ low ≤ 0x23 ∨ low = 0x2F then ieee
    else if 0x24 ≤ low ∧ low ≤ 0x27 then round = 0b10 && (trap = 0b000 || trap = 0b101)
    else if low = 0x2C then ieee || round = 0b10 && (trap = 0b010 || trap = 0b110)
    else if low = 0x3C ∨ low = 0x3E then trap = 0b000 || trap = 0b111
    else true
  | .fltL =>
    if low = 0x30 then round = 0 && (trap = 0b000 || trap = 0b001 || trap = 0b101)
    else function = low
  | _ => true

/-! ### Names -/

/-- The function code of CVTST, which shares its low six bits with CVTTS. -/
def cvtstFunction : Nat := 0x2AC

/-- The name of an opcode that has no function code. -/
def primaryName? : Opcode → Option String
  | .lda => some "lda"
  | .ldah => some "ldah"
  | .ldbu => some "ldbu"
  | .ldqU => some "ldq_u"
  | .ldwu => some "ldwu"
  | .stw => some "stw"
  | .stb => some "stb"
  | .stqU => some "stq_u"
  | .hwMfpr => some "hw_mfpr"
  | .hwLd => some "hw_ld"
  | .hwMtpr => some "hw_mtpr"
  | .hwRei => some "hw_rei"
  | .hwSt => some "hw_st"
  | .ldf => some "ldf"
  | .ldg => some "ldg"
  | .lds => some "lds"
  | .ldt => some "ldt"
  | .stf => some "stf"
  | .stg => some "stg"
  | .sts => some "sts"
  | .stt => some "stt"
  | .ldl => some "ldl"
  | .ldq => some "ldq"
  | .ldlL => some "ldl_l"
  | .ldqL => some "ldq_l"
  | .stl => some "stl"
  | .stq => some "stq"
  | .stlC => some "stl_c"
  | .stqC => some "stq_c"
  | .br => some "br"
  | .fbeq => some "fbeq"
  | .fblt => some "fblt"
  | .fble => some "fble"
  | .bsr => some "bsr"
  | .fbne => some "fbne"
  | .fbge => some "fbge"
  | .fbgt => some "fbgt"
  | .blbc => some "blbc"
  | .beq => some "beq"
  | .blt => some "blt"
  | .ble => some "ble"
  | .blbs => some "blbs"
  | .bne => some "bne"
  | .bge => some "bge"
  | .bgt => some "bgt"
  | _ => none

/-- Names of the integer arithmetic family. -/
def integerArithmeticNames : List (Nat × String) :=
  [(0x00, "addl"), (0x02, "s4addl"), (0x09, "subl"), (0x0B, "s4subl"), (0x0F, "cmpbge"),
   (0x12, "s8addl"), (0x1B, "s8subl"), (0x1D, "cmpult"), (0x20, "addq"), (0x22, "s4addq"),
   (0x29, "subq"), (0x2B, "s4subq"), (0x2D, "cmpeq"), (0x32, "s8addq"), (0x3B, "s8subq"),
   (0x3D, "cmpule"), (0x40, "addl/v"), (0x49, "subl/v"), (0x4D, "cmplt"), (0x60, "addq/v"),
   (0x69, "subq/v"), (0x6D, "cmple")]

/-- Names of the logical and conditional-move family. -/
def integerLogicalNames : List (Nat × String) :=
  [(0x00, "and"), (0x08, "bic"), (0x14, "cmovlbs"), (0x16, "cmovlbc"), (0x20, "bis"),
   (0x24, "cmoveq"), (0x26, "cmovne"), (0x28, "ornot"), (0x40, "xor"), (0x44, "cmovlt"),
   (0x46, "cmovge"), (0x48, "eqv"), (0x61, "amask"), (0x64, "cmovle"), (0x66, "cmovgt"),
   (0x6C, "implver")]

/-- Names of the shift and byte-manipulation family. -/
def integerShiftNames : List (Nat × String) :=
  [(0x02, "mskbl"), (0x06, "extbl"), (0x0B, "insbl"), (0x12, "mskwl"), (0x16, "extwl"),
   (0x1B, "inswl"), (0x22, "mskll"), (0x26, "extll"), (0x2B, "insll"), (0x30, "zap"),
   (0x31, "zapnot"), (0x32, "mskql"), (0x34, "srl"), (0x36, "extql"), (0x39, "sll"),
   (0x3B, "insql"), (0x3C, "sra"), (0x52, "mskwh"), (0x57, "inswh"), (0x5A, "extwh"),
   (0x62, "msklh"), (0x67, "inslh"), (0x6A, "extlh"), (0x72, "mskqh"), (0x77, "insqh"),
   (0x7A, "extqh")]

/-- Names of the multiply family. -/
def integerMultiplyNames : List (Nat × String) :=
  [(0x00, "mull"), (0x20, "mulq"), (0x30, "umulh"), (0x40, "mull/v"), (0x60, "mulq/v")]

/-- Names of the integer-to-floating and square-root family, by the low six bits. -/
def integerToFloatNames : List (Nat × String) :=
  [(0x04, "itofs"), (0x0B, "sqrts"), (0x24, "itoft"), (0x2B, "sqrtt")]

/-- Names of the IEEE family, by the low six bits. -/
def ieeeNames : List (Nat × String) :=
  [(0x00, "adds"), (0x01, "subs"), (0x02, "muls"), (0x03, "divs"), (0x20, "addt"),
   (0x21, "subt"), (0x22, "mult"), (0x23, "divt"), (0x24, "cmptun"), (0x25, "cmpteq"),
   (0x26, "cmptlt"), (0x27, "cmptle"), (0x2C, "cvtts"), (0x2F, "cvttq"), (0x3C, "cvtqs"),
   (0x3E, "cvtqt")]

/-- Names of the sign-copy, move and conversion family, by the low six bits. -/
def floatMoveNames : List (Nat × String) :=
  [(0x10, "cvtlq"), (0x20, "cpys"), (0x21, "cpysn"), (0x22, "cpyse"), (0x24, "mt_fpcr"),
   (0x25, "mf_fpcr"), (0x2A, "fcmoveq"), (0x2B, "fcmovne"), (0x2C, "fcmovlt"),
   (0x2D, "fcmovge"), (0x2E, "fcmovle"), (0x2F, "fcmovgt"), (0x30, "cvtql")]

/-- Names of the floating-to-integer and extension family. -/
def floatToIntegerNames : List (Nat × String) :=
  [(0x00, "sextb"), (0x01, "sextw"), (0x30, "ctpop"), (0x32, "ctlz"), (0x33, "cttz"),
   (0x70, "ftoit"), (0x78, "ftois")]

/-- Names of the barrier and counter family. -/
def miscNames : List (Nat × String) :=
  [(0x00, "trapb"), (0x01, "excb"), (0x10, "mb"), (0x11, "wmb"), (0x20, "fetch"),
   (0x28, "fetch_m"), (0x30, "rpcc"), (0x38, "rc"), (0x3A, "ecb"), (0x3C, "rs"),
   (0x3E, "wh64")]

/-- Names of the jump group. -/
def jumpNames : List (Nat × String) :=
  [(0, "jmp"), (1, "jsr"), (2, "ret"), (3, "jsr_coroutine")]

/-- Names of the PAL calls. -/
def palNames : List (Nat × String) :=
  [(0x00, "halt"), (0x80, "bpt"), (0x81, "bugchk"), (0x83, "callsys"), (0x86, "imb"),
   (0x9E, "rduniq"), (0x9F, "wruniq"), (0xAA, "gentrap")]

/-- The name of the operation that `function` selects.  Qualifier bits of floating codes do not
change the name, except that they tell CVTST from CVTTS. -/
def functionName? (op : Opcode) (function : Nat) : Option String :=
  match op with
  | .intA => integerArithmeticNames.lookup function
  | .intL => integerLogicalNames.lookup function
  | .intS => integerShiftNames.lookup function
  | .intM => integerMultiplyNames.lookup function
  | .itfp => integerToFloatNames.lookup (function % 0x40)
  | .fltI =>
    if function = cvtstFunction then some "cvtst" else ieeeNames.lookup (function % 0x40)
  | .fltL => floatMoveNames.lookup (function % 0x40)
  | .fpti => floatToIntegerNames.lookup function
  | .misc => miscNames.lookup function
  | .jsr => jumpNames.lookup function
  | .callPal => palNames.lookup function
  | _ => none

/-- The name of the operation of an opcode, with its function code when it has one. -/
def mnemonic? (op : Opcode) : Option Nat → Option String
  | some function => op.functionName? function
  | none => op.primaryName?

end Opcode

end AlphaMachine
