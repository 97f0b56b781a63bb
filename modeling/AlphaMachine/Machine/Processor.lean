import AlphaMachine.Isa.Instruction
import AlphaMachine.Machine.Trap

/-!
# Processor state

The architectural state of one processor: the two register files, the program counter, the
floating control register, the load-lock reservation and what trap delivery records.

A pending slot holds the code and the data address of a trap between the moment compiled code
reports it and the moment it is taken; zero means that no trap is pending.

* `Processor.readInt`, `Processor.writeInt` and their floating counterparts treat register 31 as
  zero;
* `Processor.setLock` and `Processor.clearLockOnStore` keep the reservation;
* `Processor.deliverTrap` redirects execution to a handler.
-/

namespace AlphaMachine

/-! ### Register files -/

/-- One file of 32 registers. -/
abbrev RegisterFile := Vector UInt64 32

namespace RegisterFile

/-- All registers zero. -/
def zeroed : RegisterFile := Vector.replicate 32 0

/-- The value of a register; register 31 reads as zero. -/
def read (file : RegisterFile) (r : Reg) : UInt64 := if r = Reg.zero then 0 else file.get r

/-- Set the slot of a register; register 31 has one, though nothing reads it. -/
def setSlot (file : RegisterFile) (r : Reg) (value : UInt64) : RegisterFile := file.set r value

/-- Set a register; writes to register 31 are dropped. -/
def write (file : RegisterFile) (r : Reg) (value : UInt64) : RegisterFile :=
  if r = Reg.zero then file else file.setSlot r value

end RegisterFile

/-! ### Floating control register -/

namespace Fpcr

/-- Bit 63: summary of the exception bits. -/
def sum : UInt64 := 0x8000000000000000

/-- Bit 57: integer overflow in a conversion. -/
def integerOverflow : UInt64 := 0x0200000000000000

/-- Bit 53: division by zero. -/
def divideByZero : UInt64 := 0x0020000000000000

/-- Bits 59 and 58: the dynamic rounding mode, here to nearest. -/
def roundNearest : UInt64 := 0x0800000000000000

end Fpcr

/-! ### State -/

/-- The processor mode. -/
inductive Mode where
  | kernel | user
  deriving DecidableEq

/-- The name used in reports. -/
def Mode.name : Mode → String
  | .kernel => "Kernel"
  | .user => "User"

/-- The state of one processor. -/
structure Processor where
  /-- Integer registers. -/
  int : RegisterFile := RegisterFile.zeroed
  /-- Floating registers, as 64-bit images. -/
  fp : RegisterFile := RegisterFile.zeroed
  /-- Address of the next instruction. -/
  pc : UInt64 := 0
  /-- Floating control register. -/
  fpcr : UInt64 := Fpcr.roundNearest
  /-- Per-process value of the unique calls. -/
  unique : UInt64 := 0
  /-- Granule of the load-lock reservation. -/
  lockAddr : UInt64 := 0
  /-- Exception address of the last delivered trap. -/
  excAddr : UInt64 := 0
  /-- Count of retired instructions. -/
  cycles : UInt64 := 0
  /-- Code of the pending trap, zero for none. -/
  pendingTrap : UInt64 := 0
  /-- Data address of the pending trap. -/
  pendingTrapAddr : UInt64 := 0
  /-- Whether the reservation holds. -/
  lockFlag : Bool := false
  /-- Floating instructions trap unless this is set. -/
  fpEnabled : Bool := true
  /-- The flag that RC and RS exchange. -/
  intrFlag : Bool := false
  /-- Set by HALT. -/
  halted : Bool := false
  /-- The processor mode. -/
  mode : Mode := .kernel
  deriving DecidableEq

namespace Processor

/-- A fresh processor about to execute at `pc`. -/
def startingAt (pc : UInt64) : Processor := { pc := pc }

/-! ### Registers -/

/-- An integer register. -/
def readInt (cpu : Processor) (r : Reg) : UInt64 := cpu.int.read r

/-- Set an integer register. -/
def writeInt (cpu : Processor) (r : Reg) (value : UInt64) : Processor :=
  { cpu with int := cpu.int.write r value }

/-- The image of a floating register. -/
def readFp (cpu : Processor) (r : Reg) : UInt64 := cpu.fp.read r

/-- Set the image of a floating register. -/
def writeFp (cpu : Processor) (r : Reg) (value : UInt64) : Processor :=
  { cpu with fp := cpu.fp.write r value }

/-- The value of an operate operand. -/
def readOperand (cpu : Processor) : Operand → UInt64
  | .register r => cpu.readInt r
  | .literal value => value.toUInt64

/-! ### Load-lock reservation -/

/-- Bytes covered by one reservation. -/
def lockGranule : UInt64 := 16

/-- The granule of an address. -/
def granule (address : UInt64) : UInt64 := address &&& ~~~(lockGranule - 1)

/-- Reserve the granule of `address`. -/
def setLock (cpu : Processor) (address : UInt64) : Processor :=
  { cpu with lockFlag := true, lockAddr := granule address }

/-- Drop the reservation when a store touches its granule. -/
def clearLockOnStore (cpu : Processor) (address : UInt64) : Processor :=
  if cpu.lockFlag && granule address == cpu.lockAddr then { cpu with lockFlag := false } else cpu

/-! ### Pending traps -/

/-- Leave `trap` in the pending slot. -/
def setPendingTrap (cpu : Processor) (trap : Trap) : Processor :=
  { cpu with pendingTrap := trap.kind.code, pendingTrapAddr := trap.address.getD 0 }

/-- The trap in the pending slot, raised at `pc`; an unknown code stands for an illegal
instruction. -/
def pendingTrap? (cpu : Processor) (pc : UInt64) : Option Trap :=
  if cpu.pendingTrap = 0 then none
  else
    let kind := (TrapKind.ofCode? cpu.pendingTrap).getD .illegalInstruction
    some ⟨kind, pc, if kind.hasAddress then some cpu.pendingTrapAddr else none⟩

/-- Take the trap out of the pending slot. -/
def takePendingTrap (cpu : Processor) (pc : UInt64) : Option Trap × Processor :=
  match cpu.pendingTrap? pc with
  | none => (none, cpu)
  | some trap => (some trap, { cpu with pendingTrap := 0, pendingTrapAddr := 0 })

/-! ### Delivery -/

/-- Continue at `vector` in kernel mode, with the exception address recorded and the reservation
dropped; a floating division by zero is also noted in the control register. -/
def deliverTrap (cpu : Processor) (trap : Trap) (vector : UInt64) : Processor :=
  { cpu with
    excAddr := trap.exceptionAddress
    mode := .kernel
    lockFlag := false
    fpcr := if trap.kind = .floatDivideByZero then cpu.fpcr ||| (Fpcr.divideByZero ||| Fpcr.sum)
            else cpu.fpcr
    pc := vector }

end Processor

end AlphaMachine
