import AlphaMachine.Block.Compile
import AlphaMachine.Exec.Execute

/-!
# Running a compiled block

A compiled block has the effect of its instructions, one after the other, up to the first trap.
The program counter and the cycle count of the processor are left alone; an instruction that
reads the cycle count sees the instructions of the block before it as retired.
-/

namespace AlphaMachine

/-- How a run of a block ended. -/
structure BlockExit where
  /-- Where execution continues; the address of the instruction after a trap. -/
  nextPc : UInt64
  /-- The number of instructions that completed. -/
  retired : UInt64
  /-- The trap that ended the run. -/
  trap : Option Trap
  /-- Whether compiled code has to be discarded. -/
  flush : Bool
  deriving DecidableEq

namespace Block

/-- Execute the instruction at `pc` of a block from `start`. -/
def runWord (start pc : UInt64) (word : UInt32) (m : Machine) : Outcome :=
  let cycles := m.cpu.cycles
  match execute word pc { m with cpu.cycles := cycles + (pc - start) / 4 } with
  | .done m flow => .done { m with cpu.cycles := cycles } flow
  | .trapped m trap => .trapped { m with cpu.cycles := cycles } trap

/-- Execute consecutive instructions from `pc`, until one leaves; the result says where execution
continues and whether code has to be discarded, or which trap was raised. -/
def runWords (start : UInt64) :
    UInt64 → List UInt32 → Machine → Machine × Except Trap (UInt64 × Bool)
  | pc, [], m => (m, .ok (pc, false))
  | pc, word :: rest, m =>
    match runWord start pc word m with
    | .trapped m trap => (m, .error trap)
    | .done m .next => runWords start (pc + 4) rest m
    | .done m flow => (m, .ok (flow.nextPc pc, flow = .flush))

section Words

variable {start pc : UInt64} {word : UInt32} {m m' : Machine} {flow : Flow} {trap : Trap}

theorem runWords_of_trapped (h : runWord start pc word m = .trapped m' trap)
    (rest : List UInt32) : runWords start pc (word :: rest) m = (m', .error trap) := by
  rw [runWords, h]

theorem runWords_of_next (h : runWord start pc word m = .done m' .next) (rest : List UInt32) :
    runWords start pc (word :: rest) m = runWords start (pc + 4) rest m' := by
  rw [runWords, h]

/-- The last word may leave in any way. -/
theorem runWords_of_last (h : runWord start pc word m = .done m' flow) :
    runWords start pc [word] m = (m', .ok (flow.nextPc pc, flow = .flush)) := by
  rw [runWords, h]
  cases flow <;> rfl

end Words

/-- Run a block once. -/
def run (b : Block) (m : Machine) : Machine × BlockExit :=
  match runWords b.start b.start b.words m with
  | (m, .ok (next, flush)) => (m, ⟨next, b.size.toUInt64, none, flush⟩)
  | (m, .error trap) => (m, ⟨trap.pc, (trap.pc - b.start) / 4, some trap, false⟩)

end Block

end AlphaMachine
