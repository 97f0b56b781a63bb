import AlphaMachine.Proofs.Engine.Transparency

/-!
# What a step can do

A step of an engine begins with a visit, if it is at a block entry (`Engine.Enters`), and then ends
in one of a few ways: `Engine.Stepped` lists them, each with what it asks of the machine and what it
makes of machine and control.  Every step is one of these (`Engine.stepped`), so an invariant of the
engine is a case analysis over the list.

The run of a compiled block is a step of many instructions.  `Block.Reaches` says which of them are
executed, and on which machines; a trap is raised by one that was reached
(`Block.exists_reaches_of_trap`).

`Engine.Raises` says which trap a step raises, and while executing what; the count of traps and the
exit of the step are about this trap (`Engine.Stepped.traps`).
-/

namespace AlphaMachine

theorem Machine.Keeps.trans {m₁ m₂ m₃ : Machine} (h : m₁.Keeps m₂) (h' : m₂.Keeps m₃) :
    m₁.Keeps m₃ :=
  ⟨h'.pc.trans h.pc, h'.cycles.trans h.cycles, h'.excAddr.trans h.excAddr, h'.mode.trans h.mode,
    h'.fpEnabled.trans h.fpEnabled, h'.pendingTrap.trans h.pendingTrap,
    h'.pendingTrapAddr.trans h.pendingTrapAddr, h'.base.trans h.base, h'.size.trans h.size⟩

/-! ### Instructions of a block -/

namespace Block

/-- The run of `words` from `pc` on the machine `m` gets to the instruction `word` at `pc'` with the
machine `m'`. -/
inductive Reaches (start : UInt64) :
    UInt64 → List UInt32 → Machine → UInt64 → UInt32 → Machine → Prop where
  /-- The first instruction is reached. -/
  | here (pc : UInt64) (word : UInt32) (rest : List UInt32) (m : Machine) :
    Reaches start pc (word :: rest) m pc word m
  /-- The instructions behind one that goes on are reached. -/
  | later {pc pc' : UInt64} {first word : UInt32} {rest : List UInt32} {m m₁ m' : Machine}
    (hfirst : runWord start pc first m = .done m₁ .next)
    (hrest : Reaches start (pc + 4) rest m₁ pc' word m') :
    Reaches start pc (first :: rest) m pc' word m'

variable {start pc pc' : UInt64} {word : UInt32} {words : List UInt32} {m m' : Machine}

/-- What holds of the first machine and is kept by instructions that go on holds at every
instruction that is reached. -/
theorem Reaches.induction {J : UInt64 → Machine → Prop}
    (hstep : ∀ pc word m m', J pc m → runWord start pc word m = .done m' .next → J (pc + 4) m')
    (h : Reaches start pc words m pc' word m') (hm : J pc m) : J pc' m' := by
  induction h with
  | here => exact hm
  | later hfirst _ ih => exact ih (hstep _ _ _ _ hm hfirst)

theorem keeps_runWord (start pc : UInt64) (word : UInt32) (m : Machine) :
    (runWord start pc word m).Keeps pc m := by
  rw [Engine.runWord_eq_map]
  -- The cycle count is lent to the instruction and taken back.
  have hkeeps := execute_keeps word pc (m.atCycles (m.cpu.cycles + (pc - start) / 4))
  generalize execute word pc (m.atCycles (m.cpu.cycles + (pc - start) / 4)) = o at hkeeps ⊢
  cases o with
  | done m' flow => exact { hkeeps with cycles := rfl }
  | trapped m' trap => exact ⟨⟨{ hkeeps.1.toKeeps with cycles := rfl }, hkeeps.1.halted⟩, hkeeps.2⟩

theorem Reaches.keeps (h : Reaches start pc words m pc' word m') : m.Keeps m' := by
  induction h with
  | here => exact (Machine.KeepsOn.refl _).toKeeps
  | @later pc _ first _ _ m _ _ hfirst _ ih =>
    have hkeeps := keeps_runWord start pc first m
    rw [hfirst] at hkeeps
    exact Machine.Keeps.trans hkeeps ih

/-- **A trap is raised by an instruction that was reached.** -/
theorem exists_reaches_of_trap {trap : Trap}
    (h : runWords start pc words m = (m', .error trap)) :
    ∃ pc' word m₁, Reaches start pc words m pc' word m₁ ∧
      runWord start pc' word m₁ = .trapped m' trap := by
  induction words generalizing pc m with
  | nil => cases h
  | cons first rest ih =>
    unfold runWords at h
    split at h
    · next m₁ trap' hfirst =>
      cases h
      exact ⟨pc, first, m, .here pc first rest m, hfirst⟩
    · next m₁ hfirst =>
      obtain ⟨pc', word, m₂, hreaches, htrap⟩ := ih h
      exact ⟨pc', word, m₂, .later hfirst hreaches, htrap⟩
    · cases h

/-- Without a trap, the run leaves by the last instruction that was reached, or goes on behind all
of them. -/
theorem exists_reaches_of_exit {exit : UInt64 × Bool} (hne : words ≠ [])
    (h : runWords start pc words m = (m', .ok exit)) :
    ∃ pc' word m₁ flow, Reaches start pc words m pc' word m₁ ∧
      runWord start pc' word m₁ = .done m' flow ∧ exit.1 = flow.nextPc pc' := by
  induction words generalizing pc m with
  | nil => exact absurd rfl hne
  | cons first rest ih =>
    unfold runWords at h
    split at h
    · cases h
    · next m₁ hfirst =>
      cases rest with
      | nil =>
        -- The last instruction: execution goes on behind it.
        cases h
        exact ⟨pc, first, m, .next, .here pc first [] m, hfirst, rfl⟩
      | cons second rest =>
        obtain ⟨pc', word, m₂, flow, hreaches, hlast⟩ := ih (List.cons_ne_nil _ _) h
        exact ⟨pc', word, m₂, flow, .later hfirst hreaches, hlast⟩
    · next m₁ flow _ hfirst =>
      cases h
      exact ⟨pc, first, m, flow, .here pc first rest m, hfirst, rfl⟩

theorem keeps_runWords {result : Except Trap (UInt64 × Bool)}
    (h : runWords start pc words m = (m', result)) : m.Keeps m' := by
  cases result with
  | error trap =>
    obtain ⟨pc', word, m₁, hreaches, htrap⟩ := exists_reaches_of_trap h
    have hlast := keeps_runWord start pc' word m₁
    rw [htrap] at hlast
    exact hreaches.keeps.trans hlast.1.toKeeps
  | ok exit =>
    by_cases hne : words = []
    · subst hne
      cases h
      exact (Machine.KeepsOn.refl m).toKeeps
    · obtain ⟨pc', word, m₁, flow, hreaches, hdone, -⟩ := exists_reaches_of_exit hne h
      have hlast := keeps_runWord start pc' word m₁
      rw [hdone] at hlast
      exact hreaches.keeps.trans hlast

end Block

namespace Engine

/-! ### Steps -/

/-- The beginning of a step: at a block entry it is a visit, which may find a block; within a block
nothing happens. -/
def Enters (e : Engine) (found : Option Block) (c : Control) : Prop :=
  if e.control.atBlockEntry then
    Control.visit { e.control with atBlockEntry := false, runLength := 0 } e.machine.mem
      e.machine.cpu.pc = (found, c)
  else found = none ∧ c = e.control

/-- The ways in which a step can end. -/
inductive Stepped (e : Engine) : Engine × Option Exit → Prop where
  /-- The machine is halted, and nothing happens. -/
  | halted (hh : e.machine.cpu.halted = true) : Stepped e (e, some .halted)
  /-- The instruction cannot be fetched. -/
  | fault {c : Control} (henters : e.Enters none c) {fault : MemoryFault}
    (hfetch : Control.fetch e.machine.mem e.machine.cpu.pc = .error fault) :
    Stepped e (raise ⟨e.machine, c⟩ (Trap.ofFault fault e.machine.cpu.pc))
  /-- The instruction is interpreted and traps. -/
  | trap {c : Control} (henters : e.Enters none c) {word : UInt32}
    (hfetch : Control.fetch e.machine.mem e.machine.cpu.pc = .ok word) {m' : Machine} {trap : Trap}
    (hexecute : execute word e.machine.cpu.pc e.machine = .trapped m' trap) :
    Stepped e (raise ⟨m', c⟩ trap)
  /-- The instruction is interpreted and completes. -/
  | done {c : Control} (henters : e.Enters none c) {word : UInt32}
    (hfetch : Control.fetch e.machine.mem e.machine.cpu.pc = .ok word) {m' : Machine} {flow : Flow}
    (hexecute : execute word e.machine.cpu.pc e.machine = .done m' flow) :
    Stepped e (settle ⟨advance m' (flow.nextPc e.machine.cpu.pc) 1,
      retire c (flow = .flush) (Instruction.decode word).endsBlock⟩)
  /-- A block is run and traps. -/
  | blockTrap {c : Control} {block : Block} (henters : e.Enters (some block) c) {m' : Machine}
    {trap : Trap}
    (hrun : Block.runWords block.start block.start block.words e.machine = (m', .error trap)) :
    Stepped e (raise ⟨advance m' m'.cpu.pc ((trap.pc - block.start) / 4),
      countRun c ((trap.pc - block.start) / 4)⟩ trap)
  /-- A block is run and completes. -/
  | blockDone {c : Control} {block : Block} (henters : e.Enters (some block) c) {m' : Machine}
    {exit : UInt64 × Bool}
    (hrun : Block.runWords block.start block.start block.words e.machine = (m', .ok exit)) :
    Stepped e (settle ⟨advance m' exit.1 block.size.toUInt64,
      (if exit.2 then (countRun c block.size.toUInt64).invalidateAll
        else countRun c block.size.toUInt64).enterBlock⟩)

variable {e : Engine} {c : Control} {block : Block}

theorem stepped_interpretOne (henters : e.Enters none c) :
    Stepped e (interpretOne ⟨e.machine, c⟩) := by
  cases hfetch : Control.fetch e.machine.mem e.machine.cpu.pc with
  | error fault =>
    rw [interpretOne_of_fault hfetch]
    exact .fault henters hfetch
  | ok word =>
    rw [interpretOne_of_fetch hfetch]
    cases hexecute : execute word e.machine.cpu.pc e.machine with
    | trapped m' trap => exact .trap henters hfetch hexecute
    | done m' flow => exact .done henters hfetch hexecute

theorem stepped_runCompiled (henters : e.Enters (some block) c) :
    Stepped e (runCompiled ⟨e.machine, c⟩ block) := by
  rcases hrun : Block.runWords block.start block.start block.words e.machine with ⟨m', trap | exit⟩
  · rw [runCompiled_of_error hrun]
    exact .blockTrap henters hrun
  · rw [runCompiled_of_ok hrun]
    exact .blockDone henters hrun

/-- **Every step ends in one of the listed ways.** -/
theorem stepped (e : Engine) : Stepped e e.step := by
  obtain ⟨m, c⟩ := e
  cases hh : m.cpu.halted with
  | true =>
    have hstep : step ⟨m, c⟩ = (⟨m, c⟩, some .halted) := by simp [step, hh]
    rw [hstep]
    exact .halted hh
  | false =>
    cases ha : c.atBlockEntry with
    | false =>
      rw [step_of_not_atBlockEntry hh ha]
      have henters : Enters ⟨m, c⟩ none c := by
        unfold Enters
        rw [if_neg (by simp [ha])]
        exact ⟨rfl, rfl⟩
      exact stepped_interpretOne henters
    | true =>
      rcases hv : Control.visit { c with atBlockEntry := false, runLength := 0 } m.mem m.cpu.pc with
        ⟨found, c'⟩
      have henters : Enters ⟨m, c⟩ found c' := by
        unfold Enters
        rw [if_pos ha]
        exact hv
      rw [step_of_visit hh ha hv]
      cases found with
      | none => exact stepped_interpretOne henters
      | some block => exact stepped_runCompiled henters

/-- What a visit and a new position in the block keep holds once the step has begun. -/
theorem Enters.induction {I : Control → Prop} {found : Option Block} (h : e.Enters found c)
    (he : I e.control)
    (hposition : ∀ c, I c → I { c with atBlockEntry := false, runLength := 0 })
    (hvisit : ∀ c, I c → I (c.visit e.machine.mem e.machine.cpu.pc).2) : I c := by
  unfold Enters at h
  split at h
  · have hc := hvisit _ (hposition _ he)
    rwa [h] at hc
  · obtain ⟨-, rfl⟩ := h
    exact he

/-- A block is found by a visit only. -/
theorem Enters.visit_eq (h : e.Enters (some block) c) :
    Control.visit { e.control with atBlockEntry := false, runLength := 0 } e.machine.mem
      e.machine.cpu.pc = (some block, c) := by
  unfold Enters at h
  split at h
  · exact h
  · exact nomatch h.1

/-! ### Traps -/

/-- The next step raises a trap while executing a word on a machine, or without getting that far
because no word can be fetched. -/
inductive Raises (e : Engine) : Trap → Option (UInt32 × Machine) → Prop where
  /-- The instruction cannot be fetched. -/
  | fetch {fault : MemoryFault}
    (hfetch : Control.fetch e.machine.mem e.machine.cpu.pc = .error fault) :
    Raises e (Trap.ofFault fault e.machine.cpu.pc) none
  /-- The instruction at the program counter is interpreted. -/
  | interpreted {word : UInt32}
    (hfetch : Control.fetch e.machine.mem e.machine.cpu.pc = .ok word) {m' : Machine} {trap : Trap}
    (hexecute : execute word e.machine.cpu.pc e.machine = .trapped m' trap) :
    Raises e trap (some (word, e.machine))
  /-- An instruction of the block at the program counter is executed. -/
  | compiled {c : Control} {block : Block} (henters : e.Enters (some block) c) {pc : UInt64}
    {word : UInt32} {m m' : Machine} {trap : Trap}
    (hreaches : Block.Reaches block.start block.start block.words e.machine pc word m)
    (hrun : Block.runWord block.start pc word m = .trapped m' trap) :
    Raises e trap (some (word, m))

theorem Enters.traps {found : Option Block} (h : e.Enters found c) :
    c.stats.traps = e.control.stats.traps := by
  refine h.induction (I := fun c => c.stats.traps = e.control.stats.traps) rfl (fun _ hc => hc) ?_
  intro c hc
  exact (Control.keeps_visit c _ _).traps.trans hc

theorem Enters.settings {found : Option Block} (h : e.Enters found c) :
    c.settings = e.control.settings := by
  refine h.induction (I := fun c => c.settings = e.control.settings) rfl (fun _ hc => hc) ?_
  intro c hc
  exact (Control.keeps_visit c _ _).settings.trans hc

theorem traps_raise (m : Machine) (c : Control) (trap : Trap) :
    (raise ⟨m, c⟩ trap).1.control.stats.traps = c.stats.traps + 1 := by
  unfold raise
  dsimp only
  split <;> rfl

theorem exit_settle_ne_trapped (e : Engine) (trap : Trap) :
    (settle e).2 ≠ some (.trapped trap) := by
  unfold settle
  split <;> simp

/-- What a step has to do with traps: none is raised, or one is, which is counted and which the
step stops on if it is to stop on traps. -/
inductive Traps (e : Engine) (r : Engine × Option Exit) : Prop where
  /-- No trap is raised. -/
  | none (hcount : r.1.control.stats.traps = e.control.stats.traps)
    (hexit : ∀ trap, r.2 ≠ some (.trapped trap))
  /-- A trap is raised. -/
  | some {trap : Trap} {cause : Option (UInt32 × Machine)} (hraises : e.Raises trap cause)
    (hcount : r.1.control.stats.traps = e.control.stats.traps + 1)
    (hexit : r.2 = if e.control.settings.stopOnTrap then some (.trapped trap) else .none)

theorem Raises.traps {m : Machine} {trap : Trap} {cause : Option (UInt32 × Machine)}
    (h : e.Raises trap cause) (hcount : c.stats.traps = e.control.stats.traps)
    (hsettings : c.settings = e.control.settings) : Traps e (raise ⟨m, c⟩ trap) := by
  refine .some h ((traps_raise m c trap).trans (by rw [hcount])) ?_
  unfold raise
  dsimp only [Control.enterBlock]
  rw [hsettings]
  split <;> rfl

/-- **A step counts the traps that are raised**, and stops on no others. -/
theorem Stepped.traps {r : Engine × Option Exit} (h : Stepped e r) : Traps e r := by
  cases h with
  | halted => exact .none rfl (by simp)
  | fault henters hfetch => exact (Raises.fetch hfetch).traps henters.traps henters.settings
  | trap henters hfetch hexecute =>
    exact (Raises.interpreted hfetch hexecute).traps henters.traps henters.settings
  | done henters hfetch hexecute =>
    exact .none ((Control.traps_retire ..).trans henters.traps) (exit_settle_ne_trapped _)
  | blockTrap henters hrun =>
    obtain ⟨pc, word, m, hreaches, htrap⟩ := Block.exists_reaches_of_trap hrun
    exact (Raises.compiled henters hreaches htrap).traps henters.traps henters.settings
  | @blockDone c block henters m' exit hrun =>
    refine .none ?_ (exit_settle_ne_trapped _)
    refine Eq.trans ?_ henters.traps
    cases exit.2 <;> rfl

end Engine

end AlphaMachine
