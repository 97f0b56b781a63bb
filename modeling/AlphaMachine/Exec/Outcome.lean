import AlphaMachine.Machine.Processor

/-!
# Outcomes of an instruction

A machine is a processor with its memory.  Executing an instruction on it either completes, with
a new machine and the way execution continues, or raises a trap.  The program counter is not
moved here: the outcome says where execution goes on.
-/

namespace AlphaMachine

/-- A processor and its memory. -/
structure Machine where
  /-- The processor. -/
  cpu : Processor
  /-- The memory. -/
  mem : Memory
  deriving DecidableEq

/-- How execution continues after an instruction. -/
inductive Flow where
  /-- With the following instruction. -/
  | next
  /-- At an address. -/
  | jump (target : UInt64)
  /-- With the following instruction, after compiled code has been discarded. -/
  | flush
  deriving DecidableEq

/-- The address of the next instruction, for an instruction at `pc`. -/
def Flow.nextPc (flow : Flow) (pc : UInt64) : UInt64 :=
  match flow with
  | .next | .flush => pc + 4
  | .jump target => target

/-- What came of an instruction. -/
inductive Outcome where
  /-- It completed. -/
  | done (m : Machine) (flow : Flow)
  /-- It raised a trap. -/
  | trapped (m : Machine) (trap : Trap)
  deriving DecidableEq

namespace Machine

/-- Set an integer register. -/
def writeInt (m : Machine) (r : Reg) (value : UInt64) : Machine :=
  { m with cpu := m.cpu.writeInt r value }

/-- Set the image of a floating register. -/
def writeFp (m : Machine) (r : Reg) (value : UInt64) : Machine :=
  { m with cpu := m.cpu.writeFp r value }

/-! ### Common outcomes -/

/-- Complete without any effect. -/
def skip (m : Machine) : Outcome := .done m .next

/-- Complete with an integer result. -/
def returnInt (m : Machine) (r : Reg) (value : UInt64) : Outcome := .done (m.writeInt r value) .next

/-- Complete with a floating result. -/
def returnFp (m : Machine) (r : Reg) (value : UInt64) : Outcome := .done (m.writeFp r value) .next

/-- Raise a trap without a data address at `pc`, changing nothing. -/
def raise (m : Machine) (kind : TrapKind) (pc : UInt64) : Outcome := .trapped m ⟨kind, pc, none⟩

/-- Complete with an integer result, or raise integer overflow when there is none. -/
def returnChecked (m : Machine) (pc : UInt64) (r : Reg) : Option UInt64 → Outcome
  | some value => m.returnInt r value
  | none => m.raise .integerOverflow pc

/-- Continue with `k` if floating instructions are enabled, raise a trap otherwise. -/
@[macro_inline]
def requireFp (m : Machine) (pc : UInt64) (k : Outcome) : Outcome :=
  if m.cpu.fpEnabled then k else m.raise .floatDisabled pc

/-- Load and continue with the value, or raise the trap of the failed access. -/
def loadThen (m : Machine) (pc address : UInt64) (size : AccessSize) (k : UInt64 → Outcome) :
    Outcome :=
  match m.mem.load address size with
  | .ok value => k value
  | .error fault => .trapped m (Trap.ofFault fault pc)

/-- Store, drop a reservation of the stored granule and complete, or raise the trap of the failed
access. -/
def storeInt (m : Machine) (pc address : UInt64) (size : AccessSize) (value : UInt64) : Outcome :=
  match m.mem.storeFault? address size with
  | some fault => .trapped m (Trap.ofFault fault pc)
  | none =>
    .done ⟨m.cpu.clearLockOnStore address, m.mem.write address size value⟩ .next

end Machine

end AlphaMachine
