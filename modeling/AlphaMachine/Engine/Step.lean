import AlphaMachine.Block.Run
import AlphaMachine.Engine.Control

/-!
# The engine

An engine is a machine together with the control that decides how its instructions are executed.
One step is one interpreted instruction, one run of a compiled block, or one trap.

* `Engine.step` takes a step, and says why execution cannot go on if it cannot;
* `Engine.runFor` and `Engine.run` take steps until execution ends or their number is used up.

A run without a limit is a run of at most `unlimited` steps, which is `2 ^ 62`.  It comes back with
`Exit.stepLimit` where execution would go on for longer than that.
-/

namespace AlphaMachine

/-- Why execution ended. -/
inductive Exit where
  /-- The machine is halted. -/
  | halted
  /-- The steps are used up. -/
  | stepLimit
  /-- A trap was raised, and the settings ask to stop on traps. -/
  | trapped (trap : Trap)
  deriving DecidableEq

/-- A machine and its control. -/
structure Engine where
  /-- The machine. -/
  machine : Machine
  /-- The control. -/
  control : Control

namespace Engine

/-- A fresh engine about to execute at `entry`. -/
def start (mem : Memory) (entry : UInt64) (settings : Settings) : Engine :=
  ⟨⟨.startingAt entry, mem⟩, .start settings⟩

/-- Continue at `pc`, which becomes a block entry. -/
def setPc : Engine → UInt64 → Engine
  | ⟨m, c⟩, pc => ⟨{ m with cpu.pc := pc }, c.enterBlock⟩

/-! ### Control of blocks -/

/-- Forget the blocks that cover `address`. -/
def invalidate (e : Engine) (address : UInt64) : Engine :=
  { e with control := e.control.invalidate address }

/-- Forget every block. -/
def invalidateAll (e : Engine) : Engine := { e with control := e.control.invalidateAll }

/-- Wait for the compilations in the background. -/
def await (e : Engine) : Engine := { e with control := e.control.await }

/-- The worker does its oldest job. -/
def work (e : Engine) : Engine := { e with control := e.control.work }

/-! ### Steps -/

/-- The end of a step without a trap: the machine may be halted. -/
def settle (e : Engine) : Engine × Option Exit :=
  (e, if e.machine.cpu.halted then some .halted else none)

/-- Stop at a trap or go on at its handler, as the settings say. -/
def raise : Engine → Trap → Engine × Option Exit
  | ⟨m, c⟩, trap =>
    let c := { c with stats.traps := c.stats.traps + 1 }.enterBlock
    if c.settings.stopOnTrap then (⟨{ m with cpu.pc := trap.pc }, c⟩, some (.trapped trap))
    else
      let vector := TrapVectors.vector ⟨c.settings.trapVectorBase⟩ trap.kind
      (⟨{ m with cpu := m.cpu.deliverTrap trap vector }, c⟩, none)

/-- The machine after `retired` instructions, the next one at `pc`. -/
def advance (m : Machine) (pc retired : UInt64) : Machine :=
  { m with cpu.pc := pc, cpu.cycles := m.cpu.cycles + retired }

/-- The control after an instruction was interpreted: it may have asked to discard compiled code,
and it may have ended a block. -/
def retire (c : Control) (flush endsBlock : Bool) : Control :=
  let c := { c with
    stats.interpreted := c.stats.interpreted + 1
    runLength := c.runLength + 1 }
  let c := if flush then c.invalidateAll else c
  if endsBlock || c.settings.maxBlockLength.toNat ≤ c.runLength then c.enterBlock else c

/-- Interpret the instruction at the program counter. -/
def interpretOne : Engine → Engine × Option Exit
  | ⟨m, c⟩ =>
    let pc := m.cpu.pc
    match Control.fetch m.mem pc with
    | .error fault => raise ⟨m, c⟩ (Trap.ofFault fault pc)
    | .ok word =>
      let i := Instruction.decode word
      match i.execute pc m with
      | .trapped m trap => raise ⟨m, c⟩ trap
      | .done m flow =>
        settle ⟨advance m (flow.nextPc pc) 1, retire c (flow = .flush) i.endsBlock⟩

/-- Run a compiled block. -/
def runCompiled : Engine → Block → Engine × Option Exit
  | ⟨m, c⟩, block =>
    let (m, exit) := block.run m
    let c := { c with
      stats.compiledRuns := c.stats.compiledRuns + 1
      stats.compiledInstructions := c.stats.compiledInstructions + exit.retired.toNat }
    match exit.trap with
    | some trap => raise ⟨advance m m.cpu.pc exit.retired, c⟩ trap
    | none =>
      let c := if exit.flush then c.invalidateAll else c
      settle ⟨advance m exit.nextPc exit.retired, c.enterBlock⟩

/-- Take one step; the exit says why execution cannot go on. -/
def step : Engine → Engine × Option Exit
  | ⟨m, c⟩ =>
    if m.cpu.halted then (⟨m, c⟩, some .halted)
    else if c.atBlockEntry then
      let (block?, c) :=
        Control.visit { c with atBlockEntry := false, runLength := 0 } m.mem m.cpu.pc
      match block? with
      | some block => runCompiled ⟨m, c⟩ block
      | none => interpretOne ⟨m, c⟩
    else interpretOne ⟨m, c⟩

/-! ### Runs -/

/-- Take at most `n` steps; without an exit, execution could go on. -/
def runFor : Nat → Engine → Engine × Option Exit
  | 0, e => (e, none)
  | n + 1, e =>
    match e.step with
    | (e, some exit) => (e, some exit)
    | (e, none) => runFor n e

/-- The steps of a run without a limit: more than can be taken in practice. -/
def unlimited : Nat := 1 <<< 62

/-- Run for `maxSteps` steps, or else as many as the settings allow; if neither sets a limit, for
`unlimited` steps. -/
def run (e : Engine) (maxSteps : Option UInt64) : Engine × Exit :=
  let limit := ((maxSteps <|> e.control.settings.maxSteps).map UInt64.toNat).getD unlimited
  let (e, exit) := e.runFor limit
  (e, exit.getD .stepLimit)

end Engine

end AlphaMachine
