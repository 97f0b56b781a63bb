import AlphaMachine.Proofs.Engine.Steps

/-!
# Blocks run from their first word to their last

The words of a block are taken from memory one behind the other, up to the first that ends a block
(`Control.fetchBlock`).  That this is the way execution takes them depends on the instructions: one
that does not end a block goes on with the following one or traps (`execute_straight`).

* `Engine.Executes` : the next step executes a certain word;
* `Engine.Executes.step_of_untrapped` : unless it traps, the step is followed by one for the
  following instruction, if the word does not end a block;
* `Engine.block_formation` : execution that begins at a fetched block executes its words in order.
-/

namespace AlphaMachine

/-- **An instruction that does not end a block** completes and goes on with the following one, the
machine being halted or not as before, or traps. -/
theorem execute_next_or_trapped {word : UInt32} (h : Block.endsAt word = false) (pc : UInt64)
    (m : Machine) :
    (∃ m', execute word pc m = .done m' .next ∧ m'.cpu.halted = m.cpu.halted) ∨
      ∃ m' trap, execute word pc m = .trapped m' trap := by
  have hstraight := execute_straight h pc m
  cases ho : execute word pc m with
  | done m' flow =>
    rw [ho] at hstraight
    obtain ⟨hkeeps, rfl⟩ := hstraight
    exact .inl ⟨m', rfl, hkeeps.halted⟩
  | trapped m' trap => exact .inr ⟨m', trap, rfl⟩

/-- The words of a block are at consecutive addresses. -/
theorem Control.Fetched.getElem? {mem : Memory} {pc : UInt64} {words : List UInt32}
    (h : Fetched mem pc words) {n : Nat} {word : UInt32} (hword : words[n]? = some word) :
    fetch mem (pc + 4 * n.toUInt64) = .ok word := by
  induction words generalizing pc n with
  | nil => cases hword
  | cons first rest ih =>
    cases n with
    | zero =>
      cases hword
      rw [Block.address_zero]
      exact h.1
    | succ n =>
      rw [Block.address_succ]
      exact ih h.2 hword

/-- A word of a fetched block that has another one behind it does not end the block. -/
theorem Control.endsAt_of_fetchBlock {mem : Memory} {pc : UInt64} {limit n : Nat}
    {words : List UInt32} (h : fetchBlock mem limit pc = .ok words) {word : UInt32}
    (hword : words[n]? = some word) (hlt : n + 1 < words.length) : Block.endsAt word = false := by
  have hmem : word ∈ (Block.upToEnd words).dropLast := by
    rw [upToEnd_of_fetchBlock h]
    refine List.mem_of_getElem? (i := n) ?_
    rw [List.getElem?_dropLast, if_pos (by omega), hword]
  exact Block.endsAt_of_mem_dropLast hmem

namespace Engine

variable {e : Engine} {pc : UInt64} {word : UInt32} {words : List UInt32} {n : Nat}

/-! ### Steps -/

/-- The next step executes `word` as the instruction at `pc`. -/
structure Executes (e : Engine) (pc : UInt64) (word : UInt32) : Prop where
  /-- The machine is not halted. -/
  halted : e.machine.cpu.halted = false
  /-- The program counter is there. -/
  counter : e.machine.cpu.pc = pc
  /-- So is the word. -/
  fetched : Control.fetch e.machine.mem pc = .ok word
  /-- The step is what becomes of the word. -/
  step : ∃ c, e.control.Alike c ∧ e.step =
    match execute word pc e.machine with
    | .trapped m trap => raise ⟨m, c⟩ trap
    | .done m flow =>
      settle ⟨advance m (flow.nextPc pc) 1,
        retire c (flow = .flush) (Instruction.decode word).endsBlock⟩

/-- The next step interprets one instruction. -/
def Interprets (e : Engine) : Prop :=
  ∃ c, e.control.Alike c ∧ e.step = interpretOne ⟨e.machine, c⟩

theorem interprets_of_plain (hj : e.control.settings.jit = false)
    (hh : e.machine.cpu.halted = false) : e.Interprets := by
  obtain ⟨c, -, halike, hstep⟩ := step_plain hj hh
  exact ⟨c, halike, hstep⟩

theorem Interprets.executes (h : e.Interprets) (hh : e.machine.cpu.halted = false)
    (hpc : e.machine.cpu.pc = pc) (hfetch : Control.fetch e.machine.mem pc = .ok word) :
    e.Executes pc word := by
  subst hpc
  obtain ⟨c, halike, hstep⟩ := h
  exact ⟨hh, rfl, hfetch, c, halike, hstep.trans (interpretOne_of_fetch hfetch c)⟩

/-- **A step within a block** that raises no trap leads to the following instruction. -/
theorem Executes.step_of_untrapped (h : e.Executes pc word) (hends : Block.endsAt word = false)
    (htraps : e.step.1.control.stats.traps = e.control.stats.traps) :
    e.step.2 = none ∧ e.step.1.machine.cpu.pc = pc + 4 ∧
      e.step.1.machine.cpu.halted = false := by
  obtain ⟨c, halike, hstep⟩ := h.step
  rcases execute_next_or_trapped hends pc e.machine with ⟨m, hdone, hm⟩ | ⟨m, trap, htrapped⟩
  · have hhalted : m.cpu.halted = false := hm.trans h.halted
    rw [hdone] at hstep
    rw [hstep]
    exact ⟨if_neg (by simp [advance, hhalted]), rfl, hhalted⟩
  · rw [htrapped] at hstep
    have hcount := traps_raise m c trap
    rw [hstep, hcount, halike.traps] at htraps
    omega

/-! ### Runs -/

/-- In the first `n` steps no instruction traps, and the words are still in memory. -/
structure Undisturbed (e : Engine) (words : List UInt32) (n : Nat) : Prop where
  /-- No trap is raised. -/
  traps : ∀ k ≤ n, (e.stateAt k).control.stats.traps = e.control.stats.traps
  /-- Nothing is stored to the words. -/
  fetched : ∀ k ≤ n, Control.Fetched (e.stateAt k).machine.mem e.machine.cpu.pc words

theorem Undisturbed.mono {k : Nat} (h : e.Undisturbed words n) (hk : k ≤ n) :
    e.Undisturbed words k :=
  ⟨fun i hi => h.traps i (Nat.le_trans hi hk), fun i hi => h.fetched i (Nat.le_trans hi hk)⟩

/-- The first `n + 1` steps interpret. -/
def InterpretsUpTo (e : Engine) (n : Nat) : Prop := ∀ k ≤ n, (e.stateAt k).Interprets

/-- After `n` steps the word with `n` others in front of it is executed. -/
theorem executes_of_undisturbed {limit : Nat}
    (hplain : e.control.settings.jit = false ∨ e.InterpretsUpTo n)
    (hh : e.machine.cpu.halted = false)
    (hfetch : Control.fetchBlock e.machine.mem limit e.machine.cpu.pc = .ok words)
    (hword : words[n]? = some word) (h : e.Undisturbed words n) :
    (e.runFor n).2 = none ∧
      (e.stateAt n).Executes (e.machine.cpu.pc + 4 * n.toUInt64) word := by
  -- By induction on the steps: each is taken by a word that has another one behind it.
  induction n generalizing word with
  | zero =>
    have hinterprets : e.Interprets :=
      hplain.elim (interprets_of_plain · hh) fun hall => hall 0 (Nat.le_refl 0)
    refine ⟨rfl, hinterprets.executes hh (Block.address_zero _).symm ?_⟩
    exact (h.fetched 0 (Nat.le_refl 0)).getElem? hword
  | succ n ih =>
    have hlt : n + 1 < words.length := (List.getElem?_eq_some_iff.1 hword).1
    have hbefore : words[n]? = some words[n] := List.getElem?_eq_getElem (by omega)
    have hplain' : e.control.settings.jit = false ∨ e.InterpretsUpTo n :=
      hplain.imp_right fun hall k hk => hall k (Nat.le_succ_of_le hk)
    obtain ⟨hrunning, hexecutes⟩ := ih hplain' hbefore (h.mono (Nat.le_succ n))
    have hends := Control.endsAt_of_fetchBlock hfetch hbefore hlt
    have hstep : e.runFor (n + 1) = (e.stateAt n).step := runFor_succ_of_none hrunning
    have hstate : e.stateAt (n + 1) = (e.stateAt n).step.1 := congrArg Prod.fst hstep
    have htraps : (e.stateAt n).step.1.control.stats.traps =
        (e.stateAt n).control.stats.traps := by
      rw [← hstate, h.traps (n + 1) (Nat.le_refl _), h.traps n (Nat.le_succ n)]
    obtain ⟨hnone, hpc, hhalted⟩ := hexecutes.step_of_untrapped hends htraps
    rw [← hstep] at hnone
    rw [← hstate] at hpc hhalted
    have hinterprets : (e.stateAt (n + 1)).Interprets := by
      refine hplain.elim (fun hj => interprets_of_plain ?_ hhalted) fun hall =>
        hall _ (Nat.le_refl _)
      exact (congrArg Settings.jit (ongoing_stateAt hj hh hnone).settings).trans hj
    have haddress := hpc.trans (Block.address_next e.machine.cpu.pc n)
    refine ⟨hnone, hinterprets.executes hhalted haddress ?_⟩
    exact (h.fetched (n + 1) (Nat.le_refl _)).getElem? hword

/-- **Blocks are formed as execution takes them.**  An instruction that does not end a block goes on
with the following one, or traps.  So an engine that begins at a fetched block, and that translates
nothing or happens to interpret, executes the words one after the other from the first address on,
as long as no instruction traps and nothing is stored to the words: it cannot go elsewhere or end
before the last of them. -/
theorem block_formation :
    (∀ word, Block.endsAt word = false → ∀ pc m,
      (∃ m', execute word pc m = .done m' .next ∧ m'.cpu.halted = m.cpu.halted) ∨
        ∃ m' trap, execute word pc m = .trapped m' trap) ∧
      ∀ (e : Engine) (limit : Nat) (words : List UInt32), e.machine.cpu.halted = false →
        Control.fetchBlock e.machine.mem limit e.machine.cpu.pc = .ok words →
        ∀ n word, words[n]? = some word →
          e.control.settings.jit = false ∨ e.InterpretsUpTo n → e.Undisturbed words n →
          (e.runFor n).2 = none ∧
            (e.stateAt n).Executes (e.machine.cpu.pc + 4 * n.toUInt64) word :=
  ⟨fun _ => execute_next_or_trapped,
    fun _ _ _ hh hfetch _ _ hword hplain => executes_of_undisturbed hplain hh hfetch hword⟩

/-- Two instructions, of which the first does nothing and the second branches to the address behind
it. -/
def idleBranch : Memory :=
  ⟨0x1000, #[0x1F, 0x04, 0xFF, 0x47, 0x00, 0x00, 0xE0, 0xC3], none, by decide⟩

/-- After the first of the two, an engine without translation is about to execute the second. -/
theorem block_formation_idleBranch :
    let e := start idleBranch 0x1000 { jit := false }
    Control.fetchBlock e.machine.mem 32 e.machine.cpu.pc = .ok [0x47FF041F, 0xC3E00000] ∧
      e.Undisturbed [0x47FF041F, 0xC3E00000] 1 ∧ (e.runFor 1).2 = none ∧
      (e.stateAt 1).Executes (0x1000 + 4 * (1 : Nat).toUInt64) 0xC3E00000 := by
  intro e
  have hfetch : Control.fetchBlock idleBranch 32 0x1000 = .ok [0x47FF041F, 0xC3E00000] := by
    decide
  have hstate : (e.stateAt 1).control.stats.traps = 0 ∧ (e.stateAt 1).machine.mem = idleBranch := by
    decide +kernel
  have hundisturbed : e.Undisturbed [0x47FF041F, 0xC3E00000] 1 := by
    refine ⟨fun k hk => ?_, fun k hk => ?_⟩
    · obtain rfl | rfl : k = 0 ∨ k = 1 := by omega
      · rfl
      · exact hstate.1
    · have hmem : (e.stateAt k).machine.mem = idleBranch := by
        obtain rfl | rfl : k = 0 ∨ k = 1 := by omega
        · rfl
        · exact hstate.2
      rw [hmem]
      exact Control.fetched_of_fetchBlock hfetch
  exact ⟨hfetch, hundisturbed, block_formation.2 e 32 _ rfl hfetch 1 _ rfl (.inl rfl) hundisturbed⟩

end Engine

end AlphaMachine
