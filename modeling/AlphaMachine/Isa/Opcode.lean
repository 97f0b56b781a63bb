/-!
# Primary opcodes

The top six bits of an instruction word select one of 64 primary opcodes, and the opcode alone
decides the format of the rest of the word.  Every value of the field is named, reserved ones
included, so reading an opcode never fails.

* `Opcode.ofBits` and `Opcode.bits` are the two directions between names and field values;
* `Opcode.format` is the layout of the word;
* `Opcode.endsBlock` says which instructions leave straight-line execution.
-/

namespace AlphaMachine

/-- The four layouts of an instruction word. -/
inductive Format where
  /-- Registers or a literal, a function code and a destination. -/
  | operate
  /-- Two registers and a 16-bit displacement. -/
  | memory
  /-- A register and a 21-bit displacement. -/
  | branch
  /-- A 26-bit function. -/
  | pal
  deriving DecidableEq

/-- The primary opcodes in the order of their field values. -/
inductive Opcode where
  | callPal | opc01 | opc02 | opc03 | opc04 | opc05 | opc06 | opc07
  | lda | ldah | ldbu | ldqU | ldwu | stw | stb | stqU
  | intA | intL | intS | intM | itfp | fltV | fltI | fltL
  | misc | hwMfpr | jsr | hwLd | fpti | hwMtpr | hwRei | hwSt
  | ldf | ldg | lds | ldt | stf | stg | sts | stt
  | ldl | ldq | ldlL | ldqL | stl | stq | stlC | stqC
  | br | fbeq | fblt | fble | bsr | fbne | fbge | fbgt
  | blbc | beq | blt | ble | blbs | bne | bge | bgt
  deriving DecidableEq

namespace Opcode

/-- Every opcode, indexed by its field value. -/
def all : Array Opcode := #[
  .callPal, .opc01, .opc02, .opc03, .opc04, .opc05, .opc06, .opc07, .lda, .ldah, .ldbu, .ldqU,
  .ldwu, .stw, .stb, .stqU, .intA, .intL, .intS, .intM, .itfp, .fltV, .fltI, .fltL, .misc,
  .hwMfpr, .jsr, .hwLd, .fpti, .hwMtpr, .hwRei, .hwSt, .ldf, .ldg, .lds, .ldt, .stf, .stg, .sts,
  .stt, .ldl, .ldq, .ldlL, .ldqL, .stl, .stq, .stlC, .stqC, .br, .fbeq, .fblt, .fble, .bsr,
  .fbne, .fbge, .fbgt, .blbc, .beq, .blt, .ble, .blbs, .bne, .bge, .bgt]

/-- The opcode named by the low six bits of `n`. -/
def ofBits (n : Nat) : Opcode := all.getD (n % 64) .callPal

/-- The six-bit field value. -/
def bits (op : Opcode) : Nat := op.ctorIdx

theorem ofBits_bits (op : Opcode) : ofBits op.bits = op := by cases op <;> rfl

theorem bits_ofBits {n : Nat} (h : n < 64) : (ofBits n).bits = n := by
  have hall : ∀ n : Fin 64, (ofBits n).bits = n := by decide
  exact hall ⟨n, h⟩

theorem bits_lt (op : Opcode) : op.bits < 64 := by cases op <;> decide

/-- The architectural name, as it appears in diagnostics. -/
def name : Opcode → String
  | .callPal => "CallPal"
  | .opc01 => "Opc01"
  | .opc02 => "Opc02"
  | .opc03 => "Opc03"
  | .opc04 => "Opc04"
  | .opc05 => "Opc05"
  | .opc06 => "Opc06"
  | .opc07 => "Opc07"
  | .lda => "Lda"
  | .ldah => "Ldah"
  | .ldbu => "Ldbu"
  | .ldqU => "LdqU"
  | .ldwu => "Ldwu"
  | .stw => "Stw"
  | .stb => "Stb"
  | .stqU => "StqU"
  | .intA => "IntA"
  | .intL => "IntL"
  | .intS => "IntS"
  | .intM => "IntM"
  | .itfp => "Itfp"
  | .fltV => "FltV"
  | .fltI => "FltI"
  | .fltL => "FltL"
  | .misc => "Misc"
  | .hwMfpr => "HwMfpr"
  | .jsr => "Jsr"
  | .hwLd => "HwLd"
  | .fpti => "Fpti"
  | .hwMtpr => "HwMtpr"
  | .hwRei => "HwRei"
  | .hwSt => "HwSt"
  | .ldf => "Ldf"
  | .ldg => "Ldg"
  | .lds => "Lds"
  | .ldt => "Ldt"
  | .stf => "Stf"
  | .stg => "Stg"
  | .sts => "Sts"
  | .stt => "Stt"
  | .ldl => "Ldl"
  | .ldq => "Ldq"
  | .ldlL => "LdlL"
  | .ldqL => "LdqL"
  | .stl => "Stl"
  | .stq => "Stq"
  | .stlC => "StlC"
  | .stqC => "StqC"
  | .br => "Br"
  | .fbeq => "Fbeq"
  | .fblt => "Fblt"
  | .fble => "Fble"
  | .bsr => "Bsr"
  | .fbne => "Fbne"
  | .fbge => "Fbge"
  | .fbgt => "Fbgt"
  | .blbc => "Blbc"
  | .beq => "Beq"
  | .blt => "Blt"
  | .ble => "Ble"
  | .blbs => "Blbs"
  | .bne => "Bne"
  | .bge => "Bge"
  | .bgt => "Bgt"

/-- The layout of the words with this opcode. -/
def format (op : Opcode) : Format :=
  if op.bits = 0x00 then .pal
  else if 0x10 ≤ op.bits ∧ op.bits ≤ 0x17 ∨ op.bits = 0x1C then .operate
  else if 0x30 ≤ op.bits then .branch
  else .memory

/-- Floating operate words have an 11-bit function and no literal form. -/
def isFloatOperate : Opcode → Bool
  | .itfp | .fltV | .fltI | .fltL => true
  | _ => false

/-- Opcodes for hardware access from within PALcode only. -/
def isPalReserved : Opcode → Bool
  | .hwMfpr | .hwLd | .hwMtpr | .hwRei | .hwSt => true
  | _ => false

/-- Opcodes after which execution need not continue with the following word. -/
def endsBlock (op : Opcode) : Bool :=
  op.format = .branch || op.format = .pal || op = .jsr || op.isPalReserved

/-- Width in bits of the function code that selects among the operations of an opcode, when it
has one. -/
def functionBits : Opcode → Option Nat
  | .intA | .intL | .intS | .intM | .fpti => some 7
  | .itfp | .fltV | .fltI | .fltL | .misc => some 6
  | .jsr => some 2
  | .callPal => some 8
  | _ => none

end Opcode

end AlphaMachine
