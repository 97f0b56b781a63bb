import AlphaMachine.Proofs.Engine.Blocks

/-!
# Histories of an engine

An engine takes steps.  Between them its owner may move the program counter, change the memory,
invalidate blocks or wait for the worker, and the worker may do a job at any time.  A state of the
engine is reached by a list of such events (`Engine.after`), and what every event preserves holds
in every state that can be reached (`Engine.after_induction`).

The first invariant of this kind: a property of all blocks that can be fetched, from any memory,
is a property of all blocks in the table (`Engine.holds_after`).
-/

namespace AlphaMachine

namespace Engine

/-- What can happen to an engine. -/
inductive Event where
  /-- The engine takes a step. -/
  | step
  /-- The owner moves the program counter. -/
  | setPc (pc : UInt64)
  /-- The owner changes the memory. -/
  | setMemory (mem : Memory)
  /-- The owner invalidates an address. -/
  | invalidate (address : UInt64)
  /-- The owner invalidates everything. -/
  | invalidateAll
  /-- The owner waits for the worker. -/
  | await
  /-- The worker does a job. -/
  | work

/-- The engine after an event. -/
def apply (e : Engine) : Event → Engine
  | .step => e.step.1
  | .setPc pc => e.setPc pc
  | .setMemory mem => { e with machine.mem := mem }
  | .invalidate address => e.invalidate address
  | .invalidateAll => e.invalidateAll
  | .await => e.await
  | .work => e.work

/-- The engine after a list of events. -/
def after (e : Engine) (events : List Event) : Engine := events.foldl apply e

/-- What holds of an engine and is preserved by every event holds after all events. -/
theorem after_induction {I : Engine → Prop} {e : Engine} (h : I e)
    (happly : ∀ e event, I e → I (apply e event)) (events : List Event) : I (e.after events) := by
  induction events generalizing e with
  | nil => exact h
  | cons event rest ih => exact ih (happly e event h)

/-! ### Steps -/

/-- At a block entry, a step is a visit and what the visit finds. -/
theorem step_of_visit {m : Machine} {c c' : Control} {block? : Option Block}
    (hh : m.cpu.halted = false) (ha : c.atBlockEntry = true)
    (hv : Control.visit { c with atBlockEntry := false, runLength := 0 } m.mem m.cpu.pc =
      (block?, c')) :
    step ⟨m, c⟩ = block?.elim (interpretOne ⟨m, c'⟩) (runCompiled ⟨m, c'⟩) := by
  simp only [step, hh, ha, hv, Bool.false_eq_true, if_false, if_true]
  cases block? <;> rfl

/-- Within a block, a step interprets an instruction. -/
theorem step_of_not_atBlockEntry {m : Machine} {c : Control} (hh : m.cpu.halted = false)
    (ha : c.atBlockEntry = false) : step ⟨m, c⟩ = interpretOne ⟨m, c⟩ := by
  simp only [step, hh, ha, Bool.false_eq_true, if_false]

/-! ### Runs of blocks -/

/-- The control after a run of a block was counted. -/
def countRun (c : Control) (retired : UInt64) : Control :=
  { c with
    stats.compiledRuns := c.stats.compiledRuns + 1
    stats.compiledInstructions := c.stats.compiledInstructions + retired.toNat }

variable {m m' : Machine} {c : Control} {block : Block}

theorem runCompiled_of_error {trap : Trap}
    (h : Block.runWords block.start block.start block.words m = (m', .error trap)) :
    runCompiled ⟨m, c⟩ block =
      raise ⟨advance m' m'.cpu.pc ((trap.pc - block.start) / 4),
        countRun c ((trap.pc - block.start) / 4)⟩ trap := by
  simp only [runCompiled, Block.run, h]
  rfl

theorem runCompiled_of_ok {exit : UInt64 × Bool}
    (h : Block.runWords block.start block.start block.words m = (m', .ok exit)) :
    runCompiled ⟨m, c⟩ block =
      settle ⟨advance m' exit.1 block.size.toUInt64,
        (if exit.2 then (countRun c block.size.toUInt64).invalidateAll
          else countRun c block.size.toUInt64).enterBlock⟩ := by
  simp only [runCompiled, Block.run, h]
  rfl

end Engine

namespace Control

open Engine

variable {P Q : BlockProperty} {c : Control}

/-! ### Blocks along a history -/

theorem Holds.raise (h : Holds P c) (m : Machine) (trap : Trap) :
    Holds P (raise ⟨m, c⟩ trap).1.control := by
  unfold Engine.raise
  dsimp only
  split <;> exact h.congr rfl rfl rfl

/-- Discarding compiled code makes room for any property. -/
theorem Holds.retire {flush : Bool} (h : Holds P c)
    (hPQ : flush = false → ∀ pc words, P pc words → Q pc words) (endsBlock : Bool) :
    Holds Q (retire c flush endsBlock) := by
  have hc : Holds P { c with
      stats.interpreted := c.stats.interpreted + 1
      runLength := c.runLength + 1 } := h.congr rfl rfl rfl
  cases flush with
  | false =>
    have hf := hc.mono (hPQ rfl)
    unfold Engine.retire
    simp only [Bool.false_eq_true, if_false]
    split
    · exact hf.enterBlock
    · exact hf
  | true =>
    have hf : Holds Q _ := hc.invalidateAll
    unfold Engine.retire
    simp only [if_true]
    split
    · exact hf.enterBlock
    · exact hf

theorem Holds.interpretOne (h : Holds P c) (m : Machine) :
    Holds P (interpretOne ⟨m, c⟩).1.control := by
  unfold Engine.interpretOne
  dsimp only
  split
  · exact h.raise ..
  · split
    · exact h.raise ..
    · exact h.retire (fun _ _ _ hp => hp) _

theorem Holds.runCompiled (h : Holds P c) (m : Machine) (block : Block) :
    Holds P (runCompiled ⟨m, c⟩ block).1.control := by
  have hc (retired : UInt64) : Holds P (countRun c retired) := h.congr rfl rfl rfl
  cases hr : Block.runWords block.start block.start block.words m with
  | mk m' result =>
    cases result with
    | error trap =>
      rw [runCompiled_of_error hr]
      exact (hc _).raise ..
    | ok exit =>
      rw [runCompiled_of_ok hr]
      refine Holds.enterBlock ?_
      split
      · exact (hc _).invalidateAll
      · exact hc _

theorem Holds.step {m : Machine} (h : Holds P c)
    (hP : FetchedHave P m.mem c.settings.maxBlockLength.toNat) :
    Holds P (Engine.step ⟨m, c⟩).1.control := by
  have hc : Holds P { c with atBlockEntry := false, runLength := 0 } := h.congr rfl rfl rfl
  unfold Engine.step
  dsimp only
  split
  · exact h
  · split
    · have hv := hc.visit hP m.cpu.pc
      split
      · exact hv.runCompiled ..
      · exact hv.interpretOne ..
    · exact h.interpretOne ..

theorem Holds.apply {e : Engine} (h : Holds P e.control)
    (hP : ∀ mem limit, FetchedHave P mem limit) (event : Event) :
    Holds P (e.apply event).control := by
  cases event with
  | step => exact h.step (hP _ _)
  | setPc pc => exact h.enterBlock
  | setMemory mem => exact h
  | invalidate address => exact h.invalidate address
  | invalidateAll => exact h.invalidateAll
  | await => exact h.await
  | work => exact h.work

end Control

/-- What can be fetched is all that is ever compiled. -/
theorem Engine.holds_after {P : Control.BlockProperty}
    (hP : ∀ mem limit, Control.FetchedHave P mem limit) (mem : Memory) (entry : UInt64)
    (settings : Settings) (events : List Event) :
    Control.Holds P ((start mem entry settings).after events).control :=
  after_induction (I := fun e => Control.Holds P e.control) (Control.holds_start P settings)
    (fun _ event h => h.apply hP event) events

end AlphaMachine
