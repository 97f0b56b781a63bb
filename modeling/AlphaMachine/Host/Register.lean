/-!
# Host registers and operand kinds

The registers, conditions and operation classes of the x86-64 instructions that compiled blocks
are made of, with the numbers that the instruction encoding uses for them.
-/

namespace AlphaMachine

namespace Host

/-- General registers, in the order of their encoding. -/
inductive Gpr where
  | rax | rcx | rdx | rbx | rsp | rbp | rsi | rdi
  | r8 | r9 | r10 | r11 | r12 | r13 | r14 | r15
  deriving DecidableEq

namespace Gpr

/-- Every register, indexed by its number. -/
def all : List Gpr :=
  [.rax, .rcx, .rdx, .rbx, .rsp, .rbp, .rsi, .rdi,
   .r8, .r9, .r10, .r11, .r12, .r13, .r14, .r15]

/-- The four-bit number. -/
def index (r : Gpr) : Nat := r.ctorIdx

/-- The name. -/
def name : Gpr → String
  | .rax => "rax"
  | .rcx => "rcx"
  | .rdx => "rdx"
  | .rbx => "rbx"
  | .rsp => "rsp"
  | .rbp => "rbp"
  | .rsi => "rsi"
  | .rdi => "rdi"
  | .r8 => "r8"
  | .r9 => "r9"
  | .r10 => "r10"
  | .r11 => "r11"
  | .r12 => "r12"
  | .r13 => "r13"
  | .r14 => "r14"
  | .r15 => "r15"

/-- The registers whose low byte can only be named with a REX prefix. -/
def byteNeedsRex : Gpr → Bool
  | .rsp | .rbp | .rsi | .rdi => true
  | _ => false

end Gpr

/-- SSE registers by number. -/
abbrev Xmm := Fin 16

/-- Operand sizes of integer instructions.  A dword result clears the upper half of its
register. -/
inductive OpSize where
  | dword | qword
  deriving DecidableEq

/-- Whether the size needs the wide bit of the REX prefix. -/
def OpSize.isWide : OpSize → Bool
  | .dword => false
  | .qword => true

/-- Conditions, in the order of their encoding. -/
inductive Cond where
  | o | no | b | ae | e | ne | be | a | s | ns | p | np | l | ge | le | g
  deriving DecidableEq

/-- Every condition, indexed by its number. -/
def Cond.all : List Cond :=
  [.o, .no, .b, .ae, .e, .ne, .be, .a, .s, .ns, .p, .np, .l, .ge, .le, .g]

/-- The four-bit number. -/
def Cond.code (c : Cond) : Nat := c.ctorIdx

/-- Integer operations on a destination and a source. -/
inductive AluOp where
  | add | or | and | sub | xor | cmp | mov | test
  deriving DecidableEq

namespace AluOp

/-- The opcode of the form with a register source. -/
def regOpcode : AluOp → UInt8
  | .add => 0x01
  | .or => 0x09
  | .and => 0x21
  | .sub => 0x29
  | .xor => 0x31
  | .cmp => 0x39
  | .mov => 0x89
  | .test => 0x85

/-- The opcode of the form with an immediate source. -/
def immOpcode : AluOp → UInt8
  | .mov => 0xC7
  | .test => 0xF7
  | _ => 0x81

/-- The opcode extension of the form with an immediate source. -/
def immExtension : AluOp → Nat
  | .add | .mov | .test => 0
  | .or => 1
  | .and => 4
  | .sub => 5
  | .xor => 6
  | .cmp => 7

end AluOp

/-- Shifts. -/
inductive ShiftOp where
  | shl | shr | sar
  deriving DecidableEq

/-- The opcode extension. -/
def ShiftOp.extension : ShiftOp → Nat
  | .shl => 4
  | .shr => 5
  | .sar => 7

/-- Scalar floating operations. -/
inductive SseOp where
  | sqrt | add | mul | sub | div
  deriving DecidableEq

/-- The second opcode byte. -/
def SseOp.opcode : SseOp → UInt8
  | .sqrt => 0x51
  | .add => 0x58
  | .mul => 0x59
  | .sub => 0x5C
  | .div => 0x5E

/-- Scalar precisions. -/
inductive Scalar where
  | single | double
  deriving DecidableEq

/-- The legacy byte that selects the precision. -/
def Scalar.legacy : Scalar → UInt8
  | .single => 0xF3
  | .double => 0xF2

/-- Sources of a sign extension. -/
inductive Narrow where
  | byte | word | dword
  deriving DecidableEq

/-- Sources of a zero extension. -/
inductive Short where
  | byte | word
  deriving DecidableEq

end Host

end AlphaMachine
