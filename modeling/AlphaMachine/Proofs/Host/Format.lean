import AlphaMachine.Host.Emitter
import AlphaMachine.Proofs.Host.Buffer

/-!
# The format of host instructions

How a processor takes the bytes of x86-64 code apart, for the opcodes that compiled code uses:

```text
legacy byte | REX      | opcode | ModRM | SIB | displacement | immediate
66, F2, F3  | 0100WRXB | 1, 2   |       |     | 0, 1, 4      | 0, 1, 4, 8
```

`Host.parse` takes one instruction from the front of a byte string and returns its fields, with the
register numbers in full, and the bytes after it; `Host.parseAll` takes instructions until no byte
is left.  All operands that ModRM and SIB bytes can spell are understood, not only those that
compiled code has, and it depends on the REX prefix whether a byte register is a low or a high one.

`Host.Encoding.op?` reads the fields as an instruction.
-/

namespace AlphaMachine

namespace Host

/-! ### Fields -/

/-- The REX prefix: whether there is one, and its bits. -/
structure Rex where
  /-- Whether there is a prefix. -/
  present : Bool
  /-- The wide bit. -/
  wide : Bool
  /-- The fourth bit of the register in the middle of the ModRM byte. -/
  reg : Nat
  /-- The fourth bit of an index. -/
  index : Nat
  /-- The fourth bit of any other register. -/
  base : Nat
  deriving DecidableEq

/-- Opcodes: one byte, or two of which the first is `0F`. -/
inductive OpcodeBytes where
  | one (b : UInt8)
  | two (b : UInt8)
  deriving DecidableEq

/-- The operand of the ModRM byte, or the register in the opcode. -/
inductive RmOperand where
  /-- There is none. -/
  | none
  /-- A register. -/
  | register (number : Nat)
  /-- Memory at a register and a displacement. -/
  | based (base : Nat) (disp : Int32)
  /-- Memory at a scaled index, a displacement and possibly a register. -/
  | indexed (base : Option Nat) (index scale : Nat) (disp : Int32)
  /-- Memory at a fixed place. -/
  | absolute (address : Int32)
  /-- Memory at the next instruction and a displacement. -/
  | ripRelative (disp : Int32)
  deriving DecidableEq

/-- The fields of an instruction. -/
structure Encoding where
  /-- The legacy byte. -/
  legacy : Option UInt8
  /-- The REX prefix. -/
  rex : Rex
  /-- The opcode, without a register in it. -/
  opcode : OpcodeBytes
  /-- The register, or opcode extension, in the middle of the ModRM byte. -/
  reg : Nat
  /-- The other operand. -/
  operand : RmOperand
  /-- The bytes of the immediate. -/
  imm : List UInt8
  deriving DecidableEq

/-! ### Opcodes -/

/-- What follows an opcode, before the immediate. -/
inductive OpcodeLayout where
  /-- Nothing. -/
  | bare
  /-- Nothing, but the low bits of the opcode are a register. -/
  | inOpcode
  /-- A ModRM byte. -/
  | modrm
  deriving DecidableEq

namespace OpcodeBytes

/-- The bytes of an opcode. -/
def bytes : OpcodeBytes → List UInt8
  | .one b => [b]
  | .two b => [0x0F, b]

/-- What follows an opcode. -/
def layout? : OpcodeBytes → Option OpcodeLayout
  | .one b =>
    if b ∈ [0xC3, 0xE9] then some .bare
    else if b / 8 ∈ [0x50 / 8, 0x58 / 8, 0xB8 / 8] then some .inOpcode
    else if b ∈ [0x01, 0x09, 0x21, 0x29, 0x31, 0x39, 0x63, 0x80, 0x81, 0x83, 0x85, 0x89, 0x8B, 0xC1,
      0xC7, 0xD3, 0xF7, 0xFF] then some .modrm
    else none
  | .two b =>
    if b / 16 = 0x8 then some .bare
    else if b / 16 ∈ [0x4, 0x9] then some .modrm
    else if b ∈ [0x10, 0x2E, 0x51, 0x58, 0x59, 0x5A, 0x5C, 0x5E, 0x6E, 0x74, 0x7E, 0xAF, 0xB6, 0xB7,
      0xBE, 0xBF, 0xD7, 0xDE] then some .modrm
    else none

/-- The length of the immediate, which may depend on the wide bit and the opcode extension. -/
def immLength (wide : Bool) (extension : Nat) : OpcodeBytes → Nat
  | .one b =>
    if b ∈ [0x81, 0xC7, 0xE9] then 4
    else if b ∈ [0x80, 0x83, 0xC1] then 1
    else if b = 0xF7 then if extension < 2 then 4 else 0
    else if b / 8 = 0xB8 / 8 then if wide then 8 else 4
    else 0
  | .two b => if b / 16 = 0x8 then 4 else 0

/-- The opcode without the register in its low bits. -/
def stem : OpcodeBytes → OpcodeBytes
  | .one b => .one (b - b % 8)
  | .two b => .two (b - b % 8)

/-- The low bits of the opcode. -/
def low : OpcodeBytes → Nat
  | .one b | .two b => b.toNat % 8

end OpcodeBytes

/-! ### Parts of an instruction -/

/-- Legacy bytes. -/
def isLegacy (b : UInt8) : Bool := b ∈ [0x66, 0xF2, 0xF3]

/-- Take a legacy byte. -/
def takeLegacy : List UInt8 → Option UInt8 × List UInt8
  | [] => (none, [])
  | b :: rest => if isLegacy b then (some b, rest) else (none, b :: rest)

/-- Take a REX prefix. -/
def takeRex : List UInt8 → Rex × List UInt8
  | [] => (⟨false, false, 0, 0, 0⟩, [])
  | b :: rest =>
    if b.toNat / 16 = 4 then
      (⟨true, b.toNat / 8 % 2 = 1, b.toNat / 4 % 2, b.toNat / 2 % 2, b.toNat % 2⟩, rest)
    else (⟨false, false, 0, 0, 0⟩, b :: rest)

/-- Take an opcode. -/
def takeOpcode : List UInt8 → Option (OpcodeBytes × List UInt8)
  | [] => none
  | b :: rest =>
    if b = 0x0F then
      match rest with
      | [] => none
      | b :: rest => some (.two b, rest)
    else some (.one b, rest)

/-- Take as many bytes. -/
def takeBytes (count : Nat) (bytes : List UInt8) : Option (List UInt8 × List UInt8) :=
  if count ≤ bytes.length then some (bytes.take count, bytes.drop count) else none

/-- Take the displacement that a ModRM mode asks for. -/
def takeDisp (mode : Nat) (bytes : List UInt8) : Option (Int32 × List UInt8) :=
  match mode, bytes with
  | 0, bytes => some (0, bytes)
  | 1, b :: rest => some (b.toInt8.toInt32, rest)
  | 1, [] => none
  | _, bytes => (takeBytes 4 bytes).map fun (disp, rest) => (signedDword disp, rest)

/-- Take a SIB byte and a displacement. -/
def takeSib (rex : Rex) (mode : Nat) : List UInt8 → Option (RmOperand × List UInt8)
  | [] => none
  | b :: rest =>
    let scale := b.toNat / 64
    let index := 8 * rex.index + b.toNat / 8 % 8
    let base := b.toNat % 8
    -- One index means that there is none, and one base without a displacement that there is none.
    if mode = 0 ∧ base = 0b101 then
      (takeDisp 2 rest).map fun (disp, rest) =>
        (if index = 0b100 then .absolute disp else .indexed none index scale disp, rest)
    else
      (takeDisp mode rest).map fun (disp, rest) =>
        let base := 8 * rex.base + base
        (if index = 0b100 then .based base disp else .indexed (some base) index scale disp, rest)

/-- Take a ModRM byte and what it asks for. -/
def takeModrm (rex : Rex) : List UInt8 → Option (Nat × RmOperand × List UInt8)
  | [] => none
  | b :: rest =>
    let mode := b.toNat / 64
    let reg := 8 * rex.reg + b.toNat / 8 % 8
    let rm := b.toNat % 8
    if mode = 0b11 then some (reg, .register (8 * rex.base + rm), rest)
    else if rm = 0b100 then (takeSib rex mode rest).map fun (operand, rest) => (reg, operand, rest)
    else if mode = 0 ∧ rm = 0b101 then
      (takeDisp 2 rest).map fun (disp, rest) => (reg, .ripRelative disp, rest)
    else
      (takeDisp mode rest).map fun (disp, rest) => (reg, .based (8 * rex.base + rm) disp, rest)

/-- Take the operands of an opcode: the register or opcode extension, and the other operand. -/
def takeOperands (rex : Rex) (opcode : OpcodeBytes) (bytes : List UInt8) :
    Option (OpcodeBytes × Nat × RmOperand × List UInt8) :=
  match opcode.layout? with
  | none => none
  | some .bare => some (opcode, 0, .none, bytes)
  | some .inOpcode => some (opcode.stem, 0, .register (8 * rex.base + opcode.low), bytes)
  | some .modrm => (takeModrm rex bytes).map (opcode, ·)

/-! ### Instructions -/

/-- Take an instruction. -/
def parse (bytes : List UInt8) : Option (Encoding × List UInt8) := do
  let (legacy, bytes) := takeLegacy bytes
  let (rex, bytes) := takeRex bytes
  let (opcode, bytes) ← takeOpcode bytes
  let (opcode, reg, operand, bytes) ← takeOperands rex opcode bytes
  let (imm, bytes) ← takeBytes (opcode.immLength rex.wide (reg % 8)) bytes
  return (⟨legacy, rex, opcode, reg, operand, imm⟩, bytes)

/-- Take instructions until no byte is left. -/
def parseAll (bytes : List UInt8) : Option (List Encoding) :=
  if bytes = [] then some []
  else
    match parse bytes with
    | none => none
    | some (e, rest) =>
      if rest.length < bytes.length then (parseAll rest).map (e :: ·) else none
termination_by bytes.length

/-! ### What the fields say -/

/-- A byte register: the low byte of a register, or the second byte of one of the first four. -/
inductive ByteReg where
  | low (number : Nat)
  | high (number : Nat)
  deriving DecidableEq

/-- What compiled code is made of: instructions, and jumps over a distance. -/
inductive Op where
  /-- An instruction. -/
  | instr (i : Instr)
  /-- Jump from the next instruction over a distance. -/
  | jump (distance : Int32)
  /-- Jump if a condition holds. -/
  | jumpIf (cond : Cond) (distance : Int32)
  deriving DecidableEq

/-- The general register with a number. -/
def gpr? (number : Nat) : Option Gpr := Gpr.all[number]?

/-- The SSE register with a number. -/
def xmm? (number : Nat) : Option Xmm := if h : number < 16 then some ⟨number, h⟩ else none

namespace Encoding

variable (e : Encoding)

/-- The operand size. -/
@[simp]
def size : OpSize := if e.rex.wide then .qword else .dword

/-- The opcode extension. -/
@[simp]
def extension : Nat := e.reg % 8

/-- The general register in the middle of the ModRM byte. -/
@[simp]
def reg? : Option Gpr := gpr? e.reg

/-- The SSE register in the middle of the ModRM byte. -/
@[simp]
def regXmm? : Option Xmm := xmm? e.reg

/-- The other operand, a general register. -/
@[simp]
def direct? : Option Gpr :=
  match e.operand with
  | .register number => gpr? number
  | _ => none

/-- The other operand, an SSE register. -/
@[simp]
def directXmm? : Option Xmm :=
  match e.operand with
  | .register number => xmm? number
  | _ => none

/-- The other operand, a byte register; without a REX prefix, four numbers name high bytes. -/
def byteReg? : Option ByteReg :=
  match e.operand with
  | .register number =>
    if e.rex.present = false ∧ 4 ≤ number then some (.high (number - 4)) else some (.low number)
  | _ => none

/-- The other operand, the low byte of a general register. -/
def directLow? : Option Gpr :=
  match e.byteReg? with
  | some (.low number) => gpr? number
  | _ => none

/-- The other operand, memory at a register and a displacement. -/
@[simp]
def memory? : Option (Gpr × Int32) :=
  match e.operand with
  | .based number disp => (gpr? number).map (·, disp)
  | _ => none

/-- The operation of an opcode with an extension and an immediate. -/
def immOp? (extension : Nat) : Option AluOp :=
  match extension with
  | 0 => some .add
  | 1 => some .or
  | 4 => some .and
  | 5 => some .sub
  | 6 => some .xor
  | 7 => some .cmp
  | _ => none

/-- The shift of an opcode extension. -/
def shiftOp? (extension : Nat) : Option ShiftOp :=
  match extension with
  | 4 => some .shl
  | 5 => some .shr
  | 7 => some .sar
  | _ => none

/-- The scalar operation of a second opcode byte. -/
def sseOp? (b : UInt8) : Option SseOp :=
  match b with
  | 0x51 => some .sqrt
  | 0x58 => some .add
  | 0x59 => some .mul
  | 0x5C => some .sub
  | 0x5E => some .div
  | _ => none

/-- Two general registers, the second source of which is the ModRM operand. -/
def alu? (op : AluOp) : Option Instr := do return .alu op e.size (← e.direct?) (← e.reg?)

/-- An instruction on a register or memory at its ModRM operand, where memory is 64 bits wide. -/
def either? (onReg : Gpr → Option Instr) (onMem : Gpr → Int32 → Option Instr) : Option Instr :=
  match e.memory? with
  | some (base, disp) => if e.rex.wide then onMem base disp else none
  | none => e.direct?.bind onReg

/-- Instructions with an opcode of one byte. -/
def oneByte? (b : UInt8) : Option Instr :=
  match b with
  | 0x01 => e.alu? .add
  | 0x09 => e.alu? .or
  | 0x21 => e.alu? .and
  | 0x29 => e.alu? .sub
  | 0x31 => e.alu? .xor
  | 0x39 => e.alu? .cmp
  | 0x85 => e.alu? .test
  | 0x50 => e.direct?.map .push
  | 0x58 => e.direct?.map .pop
  | 0x63 => do if e.rex.wide then return .movsx .dword (← e.reg?) (← e.direct?) else none
  | 0x80 => do
    let (base, disp) ← e.memory?
    if e.extension = 7 then return .cmpMemByte base disp (e.imm.headD 0) else none
  | 0x81 => do return .aluImm (← immOp? e.extension) e.size (← e.direct?) (signedDword e.imm)
  | 0x83 => do
    let (base, disp) ← e.memory?
    if e.extension = 7 ∧ e.rex.wide then return .cmpMem base disp (e.imm.headD 0).toInt8 else none
  | 0x89 => e.either? (fun dst => do return .alu .mov e.size dst (← e.reg?))
      (fun base disp => do return .store base disp (← e.reg?))
  | 0x8B => do
    let (base, disp) ← e.memory?
    if e.rex.wide then return .load (← e.reg?) base disp else none
  | 0xB8 => do return .movImm (← e.direct?) (.ofNat (Bytes.littleEndian e.imm))
  | 0xC1 => do
    return .shiftImm (← shiftOp? e.extension) e.size (← e.direct?) (e.imm.headD 0)
  | 0xC3 => some .ret
  | 0xC7 =>
    if e.extension = 0 then
      e.either? (fun dst => some (.aluImm .mov e.size dst (signedDword e.imm)))
        (fun base disp => some (.storeImm base disp (signedDword e.imm)))
    else none
  | 0xD3 => do return .shiftCl (← shiftOp? e.extension) e.size (← e.direct?)
  | 0xF7 =>
    match e.extension with
    | 0 => do return .aluImm .test e.size (← e.direct?) (signedDword e.imm)
    | 2 => do return .not e.size (← e.direct?)
    | 3 => do return .neg e.size (← e.direct?)
    | 4 => do if e.rex.wide then return .mulWide (← e.direct?) else none
    | _ => none
  | 0xFF => if e.extension = 2 then e.direct?.map .callReg else none
  | _ => none

/-- Instructions with an opcode of two bytes. -/
def twoByte? (b : UInt8) : Option Instr :=
  if b / 16 = 0x4 then do
    if e.rex.wide then return .cmov (← Cond.all[b.toNat % 16]?) (← e.reg?) (← e.direct?) else none
  else if b / 16 = 0x9 then do return .setcc (← Cond.all[b.toNat % 16]?) (← e.directLow?)
  else
    match b with
    | 0xAF => do return .imul e.size (← e.reg?) (← e.direct?)
    | 0xB6 => do if e.rex.wide then none else return .movzx .byte (← e.reg?) (← e.directLow?)
    | 0xB7 => do if e.rex.wide then none else return .movzx .word (← e.reg?) (← e.direct?)
    | 0xBE => do if e.rex.wide then return .movsx .byte (← e.reg?) (← e.directLow?) else none
    | 0xBF => do if e.rex.wide then return .movsx .word (← e.reg?) (← e.direct?) else none
    | _ => none

/-- An instruction on two SSE registers. -/
def xmms? (make : Xmm → Xmm → Instr) : Option Instr := do return make (← e.regXmm?) (← e.directXmm?)

/-- SSE instructions, by their legacy byte and second opcode byte. -/
def sse? (legacy b : UInt8) : Option Instr :=
  match legacy with
  | 0x66 =>
    match b with
    | 0x2E => e.xmms? .ucomisd
    | 0x6E => do if e.rex.wide then return .movqToXmm (← e.regXmm?) (← e.direct?) else none
    | 0x74 => e.xmms? .pcmpeqb
    | 0x7E => do if e.rex.wide then return .movqFromXmm (← e.direct?) (← e.regXmm?) else none
    | 0xD7 => do return .pmovmskb (← e.reg?) (← e.directXmm?)
    | 0xDE => e.xmms? .pmaxub
    | _ => none
  | 0xF2 =>
    match b with
    | 0x10 => e.xmms? .movsd
    | 0x5A => e.xmms? .cvtsd2ss
    | b => (sseOp? b).bind fun op => e.xmms? (.sse op .double)
  | 0xF3 =>
    match b with
    | 0x5A => e.xmms? .cvtss2sd
    | b => (sseOp? b).bind fun op => e.xmms? (.sse op .single)
  | _ => none

/-- What the fields say. -/
def op? : Option Op :=
  match e.legacy, e.opcode with
  | none, .one b =>
    if b = 0xE9 then some (.jump (signedDword e.imm)) else (e.oneByte? b).map .instr
  | none, .two b =>
    if b / 16 = 0x8 then (Cond.all[b.toNat % 16]?).map (.jumpIf · (signedDword e.imm))
    else (e.twoByte? b).map .instr
  | some _, .one _ => none
  | some legacy, .two b => (e.sse? legacy b).map .instr

end Encoding

end Host

end AlphaMachine
