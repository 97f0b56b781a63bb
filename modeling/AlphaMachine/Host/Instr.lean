import AlphaMachine.Bits.Bytes
import AlphaMachine.Host.Register

/-!
# Host instructions and their encoding

`Instr` lists the x86-64 instructions that compiled code uses, jumps apart, and `Instr.encode`
gives their bytes:

```text
legacy byte | REX      | opcode   | ModRM | SIB | displacement | immediate
66, F2, F3  | 0100WRXB | 1, 2     |       |     | 4 bytes      | 0, 1, 4, 8
```

The REX prefix is left out when none of its bits is set, unless a byte operand needs it to name a
low byte.  Memory operands are always a base register and a 32-bit displacement.
-/

namespace AlphaMachine

namespace Host

/-! ### Parts of an encoding -/

/-- The REX byte, or nothing when it can be left out. -/
def rex (wide : Bool) (reg index rm : Nat) (force : Bool) : Option UInt8 :=
  let bits := 8 * wide.toNat + 4 * (reg / 8 % 2) + 2 * (index / 8 % 2) + rm / 8 % 2
  if bits ≠ 0 ∨ force then some (UInt8.ofNat (0x40 + bits)) else none

/-- The ModRM byte. -/
def modrm (mode reg rm : Nat) : UInt8 := UInt8.ofNat (64 * (mode % 4) + 8 * (reg % 8) + rm % 8)

/-- The SIB byte. -/
def sib (scale index base : Nat) : UInt8 :=
  UInt8.ofNat (64 * (scale % 4) + 8 * (index % 8) + base % 8)

/-- The ModRM mode of a register operand. -/
def modeRegister : Nat := 0b11

/-- The ModRM mode of a memory operand with a 32-bit displacement. -/
def modeDisp32 : Nat := 0b10

/-- The operand number that announces a SIB byte. -/
def sibMarker : Nat := 0b100

/-- The four bytes of a signed immediate or displacement. -/
def dwordBytes (value : Int32) : List UInt8 := Bytes.ofWord value.toUInt32.toUInt64 4

/-- Register form: `reg` is a register number or an opcode extension. -/
def encodeReg (legacy : Option UInt8) (wide : Bool) (opcode : List UInt8) (reg rm : Nat)
    (force : Bool) : List UInt8 :=
  legacy.toList ++ (rex wide reg 0 rm force).toList ++ opcode ++ [modrm modeRegister reg rm]

/-- Memory form with a 32-bit displacement; a base numbered like the SIB marker needs a SIB byte
without index. -/
def encodeMem (legacy : Option UInt8) (wide : Bool) (opcode : List UInt8) (reg : Nat) (base : Gpr)
    (disp : Int32) (force : Bool) : List UInt8 :=
  let operand :=
    if base.index % 8 = sibMarker then
      [modrm modeDisp32 reg sibMarker, sib 0 sibMarker base.index]
    else [modrm modeDisp32 reg base.index]
  legacy.toList ++ (rex wide reg 0 base.index force).toList ++ opcode ++ operand ++
    dwordBytes disp

/-- Form with the register in the low bits of the opcode. -/
def encodePlusReg (wide : Bool) (opcode : UInt8) (reg : Gpr) : List UInt8 :=
  (rex wide 0 0 reg.index false).toList ++ [opcode + UInt8.ofNat (reg.index % 8)]

/-! ### Instructions -/

/-- The instructions of compiled code, jumps apart. -/
inductive Instr where
  /-- Call the address in a register. -/
  | callReg (reg : Gpr)
  /-- Return. -/
  | ret
  /-- Push a register. -/
  | push (reg : Gpr)
  /-- Pop a register. -/
  | pop (reg : Gpr)
  /-- `dst = dst op src`; compares only set flags. -/
  | alu (op : AluOp) (size : OpSize) (dst src : Gpr)
  /-- `dst = dst op imm`, the immediate sign-extended. -/
  | aluImm (op : AluOp) (size : OpSize) (dst : Gpr) (imm : Int32)
  /-- Load a constant, in the shortest form that is exact. -/
  | movImm (dst : Gpr) (imm : UInt64)
  /-- Complement. -/
  | not (size : OpSize) (reg : Gpr)
  /-- Negate. -/
  | neg (size : OpSize) (reg : Gpr)
  /-- Shift by a constant. -/
  | shiftImm (op : ShiftOp) (size : OpSize) (reg : Gpr) (imm : UInt8)
  /-- Shift by the low byte of `rcx`. -/
  | shiftCl (op : ShiftOp) (size : OpSize) (reg : Gpr)
  /-- Signed product; the overflow flag reports truncation. -/
  | imul (size : OpSize) (dst src : Gpr)
  /-- Unsigned product of `rax` and `src` in `rdx` and `rax`. -/
  | mulWide (src : Gpr)
  /-- Sign-extend to 64 bits. -/
  | movsx (source : Narrow) (dst src : Gpr)
  /-- Zero-extend. -/
  | movzx (source : Short) (dst src : Gpr)
  /-- Set the low byte to the truth of a condition. -/
  | setcc (cond : Cond) (reg : Gpr)
  /-- Move 64 bits if a condition holds. -/
  | cmov (cond : Cond) (dst src : Gpr)
  /-- Load 64 bits. -/
  | load (dst base : Gpr) (disp : Int32)
  /-- Store 64 bits. -/
  | store (base : Gpr) (disp : Int32) (src : Gpr)
  /-- Store a sign-extended constant. -/
  | storeImm (base : Gpr) (disp imm : Int32)
  /-- Compare 64 bits of memory with a sign-extended constant. -/
  | cmpMem (base : Gpr) (disp : Int32) (imm : Int8)
  /-- Compare a byte of memory with a constant. -/
  | cmpMemByte (base : Gpr) (disp : Int32) (imm : UInt8)
  /-- Move 64 bits to an SSE register. -/
  | movqToXmm (dst : Xmm) (src : Gpr)
  /-- Move 64 bits from an SSE register. -/
  | movqFromXmm (dst : Gpr) (src : Xmm)
  /-- Move the low 64 bits between SSE registers. -/
  | movsd (dst src : Xmm)
  /-- `dst = dst op src`; the square root reads only `src`. -/
  | sse (op : SseOp) (precision : Scalar) (dst src : Xmm)
  /-- Round double to single. -/
  | cvtsd2ss (dst src : Xmm)
  /-- Widen single to double. -/
  | cvtss2sd (dst src : Xmm)
  /-- Compare doubles. -/
  | ucomisd (a b : Xmm)
  /-- Bytewise unsigned maximum. -/
  | pmaxub (dst src : Xmm)
  /-- Bytewise equality mask. -/
  | pcmpeqb (dst src : Xmm)
  /-- Gather the top bit of each byte. -/
  | pmovmskb (dst : Gpr) (src : Xmm)
  deriving DecidableEq

namespace Instr

/-- Move between registers. -/
def mov (size : OpSize) (dst src : Gpr) : Instr := .alu .mov size dst src

/-- Clear a register. -/
def zero (reg : Gpr) : Instr := .alu .xor .dword reg reg

/-- The constant is neither a zero-extended nor a sign-extended dword. -/
def IsWide (imm : UInt64) : Prop :=
  UInt32.size ≤ imm.toNat ∧
    ¬ (Int32.minValue.toInt ≤ imm.toInt64.toInt ∧ imm.toInt64.toInt ≤ Int32.maxValue.toInt)

/-- The encoding of a constant load: 32 bits zero-extended, else 32 bits sign-extended, else all
64 bits. -/
def encodeMovImm (dst : Gpr) (imm : UInt64) : List UInt8 :=
  if imm.toNat < UInt32.size then encodePlusReg false 0xB8 dst ++ Bytes.ofWord imm 4
  else if Int32.minValue.toInt ≤ imm.toInt64.toInt ∧
      imm.toInt64.toInt ≤ Int32.maxValue.toInt then
    encodeReg none true [0xC7] 0 dst.index false ++ Bytes.ofWord imm 4
  else encodePlusReg true 0xB8 dst ++ Bytes.ofWord imm 8

/-- The form of a constant load that always spells out all 64 bits. -/
def encodeMovAbsolute (dst : Gpr) (imm : UInt64) : List UInt8 :=
  encodePlusReg true 0xB8 dst ++ Bytes.ofWord imm 8

theorem encodeMovImm_of_isWide {imm : UInt64} (h : IsWide imm) (dst : Gpr) :
    encodeMovImm dst imm = encodeMovAbsolute dst imm := by
  rw [encodeMovImm, if_neg (Nat.not_lt.2 h.1), if_neg h.2, encodeMovAbsolute]

/-- An SSE instruction on two SSE registers. -/
def encodeXmm (legacy opcode : UInt8) (dst src : Xmm) : List UInt8 :=
  encodeReg (some legacy) false [0x0F, opcode] dst.val src.val false

/-- The bytes of an instruction. -/
def encode : Instr → List UInt8
  | .callReg reg => encodeReg none false [0xFF] 2 reg.index false
  | .ret => [0xC3]
  | .push reg => encodePlusReg false 0x50 reg
  | .pop reg => encodePlusReg false 0x58 reg
  | .alu op size dst src => encodeReg none size.isWide [op.regOpcode] src.index dst.index false
  | .aluImm op size dst imm =>
    encodeReg none size.isWide [op.immOpcode] op.immExtension dst.index false ++ dwordBytes imm
  | .movImm dst imm => encodeMovImm dst imm
  | .not size reg => encodeReg none size.isWide [0xF7] 2 reg.index false
  | .neg size reg => encodeReg none size.isWide [0xF7] 3 reg.index false
  | .shiftImm op size reg imm =>
    encodeReg none size.isWide [0xC1] op.extension reg.index false ++ [imm]
  | .shiftCl op size reg => encodeReg none size.isWide [0xD3] op.extension reg.index false
  | .imul size dst src => encodeReg none size.isWide [0x0F, 0xAF] dst.index src.index false
  | .mulWide src => encodeReg none true [0xF7] 4 src.index false
  | .movsx .byte dst src => encodeReg none true [0x0F, 0xBE] dst.index src.index false
  | .movsx .word dst src => encodeReg none true [0x0F, 0xBF] dst.index src.index false
  | .movsx .dword dst src => encodeReg none true [0x63] dst.index src.index false
  | .movzx .byte dst src =>
    encodeReg none false [0x0F, 0xB6] dst.index src.index src.byteNeedsRex
  | .movzx .word dst src => encodeReg none false [0x0F, 0xB7] dst.index src.index false
  | .setcc cond reg =>
    encodeReg none false [0x0F, 0x90 + UInt8.ofNat cond.code] 0 reg.index reg.byteNeedsRex
  | .cmov cond dst src =>
    encodeReg none true [0x0F, 0x40 + UInt8.ofNat cond.code] dst.index src.index false
  | .load dst base disp => encodeMem none true [0x8B] dst.index base disp false
  | .store base disp src => encodeMem none true [0x89] src.index base disp false
  | .storeImm base disp imm => encodeMem none true [0xC7] 0 base disp false ++ dwordBytes imm
  | .cmpMem base disp imm => encodeMem none true [0x83] 7 base disp false ++ [imm.toUInt8]
  | .cmpMemByte base disp imm => encodeMem none false [0x80] 7 base disp false ++ [imm]
  | .movqToXmm dst src => encodeReg (some 0x66) true [0x0F, 0x6E] dst.val src.index false
  | .movqFromXmm dst src => encodeReg (some 0x66) true [0x0F, 0x7E] src.val dst.index false
  | .movsd dst src => encodeXmm 0xF2 0x10 dst src
  | .sse op precision dst src => encodeXmm precision.legacy op.opcode dst src
  | .cvtsd2ss dst src => encodeXmm 0xF2 0x5A dst src
  | .cvtss2sd dst src => encodeXmm 0xF3 0x5A dst src
  | .ucomisd a b => encodeXmm 0x66 0x2E a b
  | .pmaxub dst src => encodeXmm 0x66 0xDE dst src
  | .pcmpeqb dst src => encodeXmm 0x66 0x74 dst src
  | .pmovmskb dst src => encodeReg (some 0x66) false [0x0F, 0xD7] dst.index src.val false

end Instr

end Host

end AlphaMachine
