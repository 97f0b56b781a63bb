import AlphaMachine.Machine.Memory

/-!
# Traps

An instruction that detects an exceptional condition raises a trap instead of completing.  A trap
has a kind, the address of the instruction and, for failed memory accesses, the data address.

* `TrapKind.code` and `TrapKind.ofCode?` number the kinds; no kind has code zero;
* `TrapVectors.vector` is the address at which the handler of a kind starts;
* `Trap.ofFault` turns a failed access into a trap.
-/

namespace AlphaMachine

/-- The kinds of trap. -/
inductive TrapKind where
  | privilegeViolation | accessViolation | unalignedAccess | illegalInstruction
  | integerOverflow | floatDivideByZero | floatDisabled | softwareInterrupt | breakpoint
  | generated
  deriving DecidableEq

namespace TrapKind

/-- Every kind, in the order of the codes. -/
def all : List TrapKind :=
  [.privilegeViolation, .accessViolation, .unalignedAccess, .illegalInstruction,
   .integerOverflow, .floatDivideByZero, .floatDisabled, .softwareInterrupt, .breakpoint,
   .generated]

/-- The code in the pending slot, which is never zero. -/
def code : TrapKind → UInt64
  | .privilegeViolation => 1
  | .accessViolation => 2
  | .unalignedAccess => 3
  | .illegalInstruction => 4
  | .integerOverflow => 5
  | .floatDivideByZero => 6
  | .floatDisabled => 7
  | .softwareInterrupt => 8
  | .breakpoint => 9
  | .generated => 10

/-- The kind with a code. -/
def ofCode? (code : UInt64) : Option TrapKind := all.find? fun kind => kind.code == code

/-- The name used in reports. -/
def name : TrapKind → String
  | .privilegeViolation => "PrivilegeViolation"
  | .accessViolation => "AccessViolation"
  | .unalignedAccess => "UnalignedAccess"
  | .illegalInstruction => "IllegalInstruction"
  | .integerOverflow => "IntegerOverflow"
  | .floatDivideByZero => "FpDivideByZero"
  | .floatDisabled => "FpDisabled"
  | .softwareInterrupt => "SoftwareInterrupt"
  | .breakpoint => "Breakpoint"
  | .generated => "GenTrap"

/-- The description used in diagnostics. -/
def text : TrapKind → String
  | .privilegeViolation => "privilege violation"
  | .accessViolation => "access violation"
  | .unalignedAccess => "unaligned access"
  | .illegalInstruction => "illegal instruction"
  | .integerOverflow => "integer overflow"
  | .floatDivideByZero => "floating-point divide by zero"
  | .floatDisabled => "floating-point disabled"
  | .softwareInterrupt => "system call"
  | .breakpoint => "breakpoint"
  | .generated => "generated trap"

/-- Traps asked for by the program resume behind the instruction, faults at it. -/
def resumesAfter : TrapKind → Bool
  | .softwareInterrupt | .breakpoint | .generated => true
  | _ => false

/-- Whether traps of this kind carry a data address. -/
def hasAddress : TrapKind → Bool
  | .accessViolation | .unalignedAccess => true
  | _ => false

end TrapKind

/-- A raised trap. -/
structure Trap where
  /-- What happened. -/
  kind : TrapKind
  /-- The address of the instruction. -/
  pc : UInt64
  /-- The data address of a failed memory access. -/
  address : Option UInt64 := none
  deriving DecidableEq

namespace Trap

/-- The trap of a failed memory access by the instruction at `pc`. -/
def ofFault (fault : MemoryFault) (pc : UInt64) : Trap :=
  match fault with
  | .unmapped address | .protection address => ⟨.accessViolation, pc, some address⟩
  | .unaligned address => ⟨.unalignedAccess, pc, some address⟩

/-- The exception address to record on delivery. -/
def exceptionAddress (trap : Trap) : UInt64 :=
  if trap.kind.resumesAfter then trap.pc + 4 else trap.pc

/-- The diagnostic. -/
def message (trap : Trap) : String :=
  trap.kind.text ++ " at pc=" ++ Text.hex trap.pc.toNat

end Trap

/-- The table of trap handlers. -/
structure TrapVectors where
  /-- The address of the table. -/
  base : UInt64

/-- The address of the handler of `kind`: handlers are 128 bytes apart, in the order of their
codes. -/
def TrapVectors.vector (vectors : TrapVectors) (kind : TrapKind) : UInt64 :=
  vectors.base + 0x80 * kind.code

end AlphaMachine
