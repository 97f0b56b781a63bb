import AlphaMachine.Proofs.Block.Acceptance
import AlphaMachine.Proofs.Engine.Protocol
import Mathlib.Order.WellFounded

/-!
# Translation is invisible

An engine that compiles hot blocks and one that interprets every instruction do the same to the
machine, if the program does not change its code behind the engine's back: every instruction word,
when it is fetched to be executed, has kept its contents since the last instruction memory barrier
(`Engine.CodeStable`).

The engine that compiles takes longer strides.  The argument follows the other one, and has three
parts.

* Every block that may be run was fetched from a memory behind the last barrier
  (`Engine.Current`), because a barrier makes the engine forget all blocks.
* Within a block, the machine of the other engine is the machine of the block with the program
  counter and the cycle count brought up to date (`Engine.InBlock`).
* So each step of one engine is one or more steps of the other (`Engine.Sim.step`), and what can
  be seen of the two runs is the same (`Engine.translation_invisible`).
-/

namespace AlphaMachine

namespace Engine

variable {p e : Engine} {k n t : Nat}

/-! ### Stable code -/

/-- The instruction of step `n` is the instruction memory barrier. -/
def BarrierAt (p : Engine) (n : Nat) : Prop :=
  ∃ word, Control.fetch (p.stateAt n).machine.mem (p.stateAt n).machine.cpu.pc = .ok word ∧
    Instruction.decode word = .pal Operation.barrierFunction

/-- There is no barrier from step `k` to before step `n`. -/
def NoBarrier (p : Engine) (k n : Nat) : Prop := ∀ i, k ≤ i → i < n → ¬ p.BarrierAt i

/-- Every instruction word, when it is fetched to be executed, has kept its contents since the last
barrier, or since the beginning. -/
def CodeStable (p : Engine) : Prop :=
  ∀ n, (p.runFor n).2 = none → ∀ k ≤ n, p.NoBarrier k n → ∀ word,
    Control.fetch (p.stateAt n).machine.mem (p.stateAt n).machine.cpu.pc = .ok word →
    Control.fetch (p.stateAt k).machine.mem (p.stateAt n).machine.cpu.pc = .ok word

/-- A run that interprets, of a program with stable code. -/
structure Plain (p : Engine) : Prop where
  /-- Nothing is compiled. -/
  jit : p.control.settings.jit = false
  /-- The machine is not halted to begin with. -/
  halted : p.machine.cpu.halted = false
  /-- The code is stable. -/
  stable : p.CodeStable

theorem Plain.ongoing (hp : p.Plain) (hn : (p.runFor n).2 = none) : Ongoing p (p.stateAt n) :=
  ongoing_stateAt hp.jit hp.halted hn

theorem noBarrier_self (p : Engine) (n : Nat) : p.NoBarrier n n :=
  fun _ hi hlt => absurd (Nat.lt_of_le_of_lt hi hlt) (Nat.lt_irrefl n)

theorem NoBarrier.trans (h : p.NoBarrier k n) (h' : p.NoBarrier n t) : p.NoBarrier k t := by
  intro i hi hlt
  by_cases hn : i < n
  · exact h i hi hn
  · exact h' i (Nat.le_of_not_lt hn) hlt

theorem NoBarrier.succ (h : p.NoBarrier k n) (hb : ¬ p.BarrierAt n) : p.NoBarrier k (n + 1) := by
  refine h.trans fun i hi hlt => ?_
  obtain rfl : i = n := Nat.le_antisymm (Nat.le_of_lt_succ hlt) hi
  exact hb

/-- A step that does not discard compiled code is no barrier. -/
theorem not_barrierAt {word : UInt32}
    (hf : Control.fetch (p.stateAt n).machine.mem (p.stateAt n).machine.cpu.pc = .ok word)
    (pc : UInt64) (m : Machine) (h : ∀ m', execute word pc m ≠ .done m' .flush) :
    ¬ p.BarrierAt n := by
  rintro ⟨word', hf', hd⟩
  obtain rfl : word = word' := Except.ok.inj (hf.symm.trans hf')
  exact h m (execute_barrier hd pc m)

/-! ### Blocks that may be run -/

/-- A block whose words were fetched behind the last barrier, of which only the last ends it. -/
def Current (p : Engine) (n : Nat) : Control.BlockProperty := fun start words =>
  words ≠ [] ∧ Block.upToEnd words = words ∧
    ∃ k ≤ n, p.NoBarrier k n ∧ Control.Fetched (p.stateAt k).machine.mem start words

theorem fetchedHave_current (p : Engine) (n limit : Nat) :
    Control.FetchedHave (p.Current n) (p.stateAt n).machine.mem limit :=
  fun _ _ hne hw => ⟨hne, Control.upToEnd_of_fetchBlock hw, n, Nat.le_refl n, p.noBarrier_self n,
    Control.fetched_of_fetchBlock hw⟩

theorem Current.later (hle : n ≤ t) (hb : p.NoBarrier n t) {start : UInt64} {words : List UInt32}
    (h : p.Current n start words) : p.Current t start words := by
  obtain ⟨hne, hend, k, hk, hkn, hf⟩ := h
  exact ⟨hne, hend, k, Nat.le_trans hk hle, hkn.trans hb, hf⟩

/-! ### Within a block -/

/-- The run is in step `t` at word `i` of a block that was fetched in step `k`; `m` is the machine
of the block, whose program counter and cycle count stand still. -/
structure InBlock (p : Engine) (k t : Nat) (start : UInt64) (i : Nat) (m : Machine) : Prop where
  /-- The run has not ended. -/
  running : (p.runFor t).2 = none
  /-- The machine of the run is that of the block, brought up to date. -/
  machine : (p.stateAt t).machine = advance m (start + 4 * UInt64.ofNat i) (UInt64.ofNat i)
  /-- The block was fetched before. -/
  le : k ≤ t
  /-- There was no barrier since. -/
  noBarrier : p.NoBarrier k t

theorem div_four {i : Nat} (hi : 4 * i < 2 ^ 64) (start : UInt64) :
    (start + 4 * UInt64.ofNat i - start) / 4 = UInt64.ofNat i := by
  have hfour : (4 : UInt64).toNat = 4 := rfl
  rw [UInt64.add_comm, UInt64.add_sub_cancel, ← UInt64.toNat_inj, UInt64.toNat_div,
    UInt64.toNat_mul, UInt64.toNat_ofNat', hfour]
  omega

theorem InBlock.fetch (hp : p.Plain) {start : UInt64} {i : Nat} {m : Machine}
    (h : InBlock p k t start i m) {word : UInt32}
    (hf : Control.fetch (p.stateAt k).machine.mem (start + 4 * UInt64.ofNat i) = .ok word) :
    Control.fetch (p.stateAt t).machine.mem (p.stateAt t).machine.cpu.pc = .ok word := by
  have hpc : (p.stateAt t).machine.cpu.pc = start + 4 * UInt64.ofNat i := by rw [h.machine]; rfl
  have hk := hp.ongoing (running_of_le h.le h.running)
  have ht := hp.ongoing h.running
  -- Both memories have the extent of the first one, so there is some word to be fetched.
  obtain ⟨word', hw⟩ := Control.exists_fetch_eq_ok (ht.base.trans hk.base.symm)
    (ht.size.trans hk.size.symm) hf
  rw [← hpc] at hw hf
  have hold := hp.stable t h.running k h.le h.noBarrier word' hw
  rw [hf] at hold
  rw [hw, hold]

/-- A word of a block is executed with the cycles of the words before it. -/
theorem runWord_eq_map (start pc : UInt64) (word : UInt32) (m : Machine) :
    Block.runWord start pc word m =
      (execute word pc (m.atCycles (m.cpu.cycles + (pc - start) / 4))).map
        (·.atCycles m.cpu.cycles) := by
  cases h : execute word pc (m.atCycles (m.cpu.cycles + (pc - start) / 4)) <;>
  · simp only [Machine.atCycles] at h
    simp only [Block.runWord, h]
    rfl

/-- A word of a block acts as the same word interpreted, but for the program counter and the cycle
count. -/
theorem view_interpretOne_advance (start : UInt64) {pc : UInt64} {word : UInt32} {m : Machine}
    (hf : Control.fetch m.mem pc = .ok word) (c : Control) :
    view (interpretOne ⟨advance m pc ((pc - start) / 4), c⟩) =
      match Block.runWord start pc word m with
      | .trapped m' trap => view (raise ⟨advance m' m'.cpu.pc ((pc - start) / 4), c⟩ trap)
      | .done m' flow =>
        view (settle ⟨advance m' (flow.nextPc pc) ((pc - start) / 4 + 1), c⟩) := by
  rw [runWord_eq_map]
  generalize (pc - start) / 4 = i
  have hfetch : Control.fetch (advance m pc i).mem (advance m pc i).cpu.pc = .ok word := hf
  have hexec : execute word (advance m pc i).cpu.pc (advance m pc i) =
      (execute word pc (m.atCycles (m.cpu.cycles + i))).map (·.atPc pc) :=
    execute_atPc word pc (m.atCycles (m.cpu.cycles + i)) pc
  have hkeeps := execute_keeps word pc (m.atCycles (m.cpu.cycles + i))
  rw [interpretOne_of_fetch hfetch, hexec]
  cases he : execute word pc (m.atCycles (m.cpu.cycles + i)) with
  | trapped m₂ trap =>
    rw [he] at hkeeps
    have hcycles : m.cpu.cycles + i = m₂.cpu.cycles := hkeeps.1.cycles.symm
    simp only [Outcome.map, advance, Machine.atCycles, hcycles]
    -- A trap does not depend on where the program counter was.
    rfl
  | done m₂ flow =>
    rw [he] at hkeeps
    have hcycles : m.cpu.cycles + (i + 1) = m₂.cpu.cycles + 1 := by
      rw [hkeeps.cycles, ← UInt64.add_assoc]
      rfl
    simp only [Outcome.map, advance, Machine.atCycles, hcycles]
    exact view_settle (Control.alike_retire ..) _

theorem pc_of_runWord {start pc : UInt64} {word : UInt32} {m m' : Machine} {trap : Trap}
    (h : Block.runWord start pc word m = .trapped m' trap) : trap.pc = pc := by
  rw [runWord_eq_map, Outcome.map_eq_trapped] at h
  obtain ⟨m₂, he, -⟩ := h
  have hkeeps := execute_keeps word pc (m.atCycles (m.cpu.cycles + (pc - start) / 4))
  rw [he] at hkeeps
  exact hkeeps.2

/-- A word that does not end a block goes on with the next one. -/
theorem straight_of_runWord {start pc : UInt64} {word : UInt32} {m m' : Machine} {flow : Flow}
    (hend : Block.endsAt word = false) (h : Block.runWord start pc word m = .done m' flow) :
    flow = .next ∧ m'.cpu.halted = m.cpu.halted := by
  rw [runWord_eq_map, Outcome.map_eq_done] at h
  obtain ⟨m₂, he, rfl⟩ := h
  have hs := execute_straight hend pc (m.atCycles (m.cpu.cycles + (pc - start) / 4))
  rw [he] at hs
  exact ⟨hs.2, hs.1.halted⟩

theorem endsAt_of_upToEnd {word word' : UInt32} {rest : List UInt32}
    (h : Block.upToEnd (word :: word' :: rest) = word :: word' :: rest) :
    Block.endsAt word = false ∧ Block.upToEnd (word' :: rest) = word' :: rest := by
  rw [Block.upToEnd] at h
  cases he : Block.endsAt word with
  | true => simp [he] at h
  | false =>
    simp only [he, Bool.false_eq_true, if_false, List.cons.injEq, true_and] at h
    exact ⟨rfl, h⟩

theorem view_settle_of_running {m : Machine} (h : m.cpu.halted = false) {pc retired : UInt64}
    {c : Control} :
    view (settle ⟨advance m pc retired, c⟩) = ⟨advance m pc retired, c.stats.traps, none⟩ := by
  simp only [view, settle, advance, h, Bool.false_eq_true, if_false]

/-- A word of a block that does not discard code is no barrier. -/
theorem not_barrierAt_of_runWord {start pc : UInt64} {word : UInt32} {m : Machine}
    (hf : Control.fetch (p.stateAt n).machine.mem (p.stateAt n).machine.cpu.pc = .ok word)
    {o : Outcome} (hw : Block.runWord start pc word m = o) (ho : ∀ m', o ≠ .done m' .flush) :
    ¬ p.BarrierAt n := by
  refine not_barrierAt hf pc (m.atCycles (m.cpu.cycles + (pc - start) / 4)) fun m' he => ?_
  refine ho (m'.atCycles m.cpu.cycles) ?_
  rw [← hw, runWord_eq_map, he]
  rfl

/-- One word of the block is one step of the run. -/
theorem InBlock.view_succ (hp : p.Plain) {start : UInt64} {i : Nat} {m : Machine}
    (h : InBlock p k t start i m) (hi : 4 * i < 2 ^ 64) {word : UInt32}
    (hf : Control.fetch (p.stateAt k).machine.mem (start + 4 * UInt64.ofNat i) = .ok word)
    {c : Control} (hc : (p.stateAt t).control.Alike c) :
    view (p.runFor (t + 1)) = match Block.runWord start (start + 4 * UInt64.ofNat i) word m with
      | .trapped m' trap => view (raise ⟨advance m' m'.cpu.pc (UInt64.ofNat i), c⟩ trap)
      | .done m' flow =>
        view (settle ⟨advance m' (flow.nextPc (start + 4 * UInt64.ofNat i))
          (UInt64.ofNat (i + 1)), c⟩) := by
  have hfetch := h.fetch hp hf
  rw [h.machine] at hfetch
  have hpc : Control.fetch m.mem (start + 4 * UInt64.ofNat i) = .ok word := hfetch
  have hview := view_interpretOne_advance start hpc c
  rw [div_four hi] at hview
  rw [view_runFor_succ hp.jit hp.halted h.running hc, h.machine, UInt64.ofNat_add]
  exact hview

/-- Behind a word that goes on, the run is at the next word. -/
theorem InBlock.succ (hp : p.Plain) {start : UInt64} {i : Nat} {m m' : Machine}
    (h : InBlock p k t start i m) (hi : 4 * i < 2 ^ 64) {word : UInt32}
    (hf : Control.fetch (p.stateAt k).machine.mem (start + 4 * UInt64.ofNat i) = .ok word)
    (hw : Block.runWord start (start + 4 * UInt64.ofNat i) word m = .done m' .next)
    (hhalted : m'.cpu.halted = m.cpu.halted) {c : Control}
    (hc : (p.stateAt t).control.Alike c) :
    InBlock p k (t + 1) start (i + 1) m' ∧ (p.stateAt (t + 1)).control.Alike c := by
  have hrun : m'.cpu.halted = false := by
    have hq := (hp.ongoing h.running).halted
    rw [h.machine] at hq
    exact hhalted.trans hq
  have hview := h.view_succ hp hi hf hc
  rw [hw] at hview
  replace hview := hview.trans (view_settle_of_running hrun)
  have hb : ¬ p.BarrierAt t := not_barrierAt_of_runWord (h.fetch hp hf) hw fun _ hd =>
    Flow.noConfusion (Outcome.done.inj hd).2
  have hnext : start + 4 * UInt64.ofNat i + 4 = start + 4 * UInt64.ofNat (i + 1) :=
    Block.address_next start i
  have hnew : InBlock p k (t + 1) start (i + 1) m' :=
    ⟨congrArg View.exit hview,
      (congrArg View.machine hview).trans (by rw [← hnext]; rfl),
      Nat.le_succ_of_le h.le, h.noBarrier.succ hb⟩
  have hs := (hp.ongoing hnew.running).settings.trans (hp.ongoing h.running).settings.symm
  exact ⟨hnew, hc.stopOnTrap.trans (congrArg Settings.stopOnTrap hs.symm),
    hc.trapVectorBase.trans (congrArg Settings.trapVectorBase hs.symm),
    (congrArg View.traps hview).symm⟩

/-- What the run has done after the rest of a block. -/
def AfterBlock (p : Engine) (k t : Nat) (start : UInt64) (size : Nat) (c : Control) :
    Machine × Except Trap (UInt64 × Bool) → Prop
  | (m, .error trap) =>
    p.NoBarrier k t ∧
      view (p.runFor t) = view (raise ⟨advance m m.cpu.pc ((trap.pc - start) / 4), c⟩ trap)
  | (m, .ok (next, flush)) =>
    (flush = false → p.NoBarrier k t) ∧
      view (p.runFor t) = view (settle ⟨advance m next (UInt64.ofNat size), c⟩)

/-- **The rest of a block is one or more steps of the run.** -/
theorem InBlock.afterBlock (hp : p.Plain) {start : UInt64} {words : List UInt32} {i : Nat}
    {m : Machine} (h : InBlock p k t start i m) (hne : words ≠ [])
    (hend : Block.upToEnd words = words)
    (hf : Control.Fetched (p.stateAt k).machine.mem (start + 4 * UInt64.ofNat i) words)
    (hr : 4 * (i + words.length) ≤ 2 ^ 64) {c : Control} (hc : (p.stateAt t).control.Alike c) :
    ∃ j, 1 ≤ j ∧ p.AfterBlock k (t + j) start (i + words.length) c
      (Block.runWords start (start + 4 * UInt64.ofNat i) words m) := by
  induction words generalizing t i m with
  | nil => exact absurd rfl hne
  | cons word rest ih =>
    simp only [List.length_cons] at hr ⊢
    have hi : 4 * i < 2 ^ 64 := by omega
    have hfetch := h.fetch hp hf.1
    have hview := h.view_succ hp hi hf.1 hc
    cases hw : Block.runWord start (start + 4 * UInt64.ofNat i) word m with
    | trapped m' trap =>
      have hb : ¬ p.BarrierAt t :=
        not_barrierAt_of_runWord hfetch hw fun _ hd => Outcome.noConfusion hd
      rw [hw] at hview
      rw [Block.runWords_of_trapped hw]
      refine ⟨1, Nat.le_refl 1, h.noBarrier.succ hb, ?_⟩
      rw [pc_of_runWord hw, div_four hi]
      exact hview
    | done m' flow =>
      rw [hw] at hview
      cases rest with
      | nil =>
        -- The last word may leave in any way; the block and the run go on at the same address.
        rw [Block.runWords_of_last hw]
        have hb : flow ≠ .flush → ¬ p.BarrierAt t := fun hflow =>
          not_barrierAt_of_runWord hfetch hw fun _ hd => hflow (Outcome.done.inj hd).2
        refine ⟨1, Nat.le_refl 1, ?_⟩
        cases flow with
        | next => exact ⟨fun _ => h.noBarrier.succ (hb (by simp)), hview⟩
        | jump target => exact ⟨fun _ => h.noBarrier.succ (hb (by simp)), hview⟩
        | flush => exact ⟨fun hflush => by simp at hflush, hview⟩
      | cons word' rest' =>
        obtain ⟨hword, hend'⟩ := endsAt_of_upToEnd hend
        obtain ⟨rfl, hhalted⟩ := straight_of_runWord hword hw
        obtain ⟨hnew, halike⟩ := h.succ hp hi hf.1 hw hhalted hc
        have hnext : start + 4 * UInt64.ofNat i + 4 = start + 4 * UInt64.ofNat (i + 1) :=
          Block.address_next start i
        have hf' := hf.2
        rw [hnext] at hf'
        obtain ⟨j, -, hj⟩ := ih hnew (List.cons_ne_nil _ _) hend' hf' (by omega) halike
        refine ⟨1 + j, Nat.le_add_right 1 j, ?_⟩
        have hlen : i + ((word' :: rest').length + 1) = i + 1 + (word' :: rest').length := by omega
        rw [Block.runWords_of_next hw, hnext, hlen, ← Nat.add_assoc]
        exact hj

/-! ### One step and several -/

/-- An engine that may compile, and step `n` of the run that interprets. -/
structure Sim (p : Engine) (n : Nat) (e : Engine) : Prop where
  /-- The run has not ended. -/
  running : (p.runFor n).2 = none
  /-- The machines are the same. -/
  machine : e.machine = (p.stateAt n).machine
  /-- Traps are treated in the same way. -/
  alike : (p.stateAt n).control.Alike e.control
  /-- The blocks are up to date. -/
  blocks : Control.Holds (p.Current n) e.control

theorem Sim.of_view (hp : p.Plain) (h : p.Sim n e) {r : Engine × Option Exit}
    (hview : view r = view (p.runFor t)) (hx : r.2 = none)
    (hs : r.1.control.settings = e.control.settings)
    (hb : Control.Holds (p.Current t) r.1.control) : p.Sim t r.1 := by
  have hrun : (p.runFor t).2 = none := (congrArg View.exit hview).symm.trans hx
  have hset := (hp.ongoing hrun).settings.trans (hp.ongoing h.running).settings.symm
  refine ⟨hrun, congrArg View.machine hview, ⟨?_, ?_, congrArg View.traps hview⟩, hb⟩
  · rw [hs, h.alike.stopOnTrap, ← hset]
  · rw [hs, h.alike.trapVectorBase, ← hset]

/-- An interpreted instruction is one step of the run. -/
theorem Sim.interpretOne (hp : p.Plain) {m : Machine} {c : Control} (h : p.Sim n ⟨m, c⟩) :
    view (interpretOne ⟨m, c⟩) = view (p.runFor (n + 1)) ∧
      ((interpretOne ⟨m, c⟩).2 = none → p.Sim (n + 1) (interpretOne ⟨m, c⟩).1) := by
  have hview : view (Engine.interpretOne ⟨m, c⟩) = view (p.runFor (n + 1)) := by
    rw [view_runFor_succ hp.jit hp.halted h.running h.alike, ← h.machine]
  refine ⟨hview, fun hx => h.of_view hp hview hx (settings_interpretOne m c) ?_⟩
  have hlater (hb : ¬ p.BarrierAt n) : ∀ pc words, p.Current n pc words →
      p.Current (n + 1) pc words :=
    fun _ _ => Current.later (Nat.le_succ n) ((p.noBarrier_self n).succ hb)
  have hm : (p.stateAt n).machine = m := h.machine.symm
  cases hf : Control.fetch m.mem m.cpu.pc with
  | error fault =>
    rw [interpretOne_of_fault hf]
    have hb : ¬ p.BarrierAt n := by
      rintro ⟨word, hw, -⟩
      rw [hm, hf] at hw
      cases hw
    exact (h.blocks.mono (hlater hb)).raise m _
  | ok word =>
    rw [interpretOne_of_fetch hf]
    rw [← hm] at hf
    cases he : execute word m.cpu.pc m with
    | trapped m' trap =>
      have hb : ¬ p.BarrierAt n := not_barrierAt hf m.cpu.pc m fun m' hd => by
        rw [he] at hd
        cases hd
      exact (h.blocks.mono (hlater hb)).raise m' trap
    | done m' flow =>
      refine h.blocks.retire (fun hflush => hlater ?_) _
      refine not_barrierAt hf m.cpu.pc m fun m' hd => ?_
      rw [he] at hd
      cases hd
      simp at hflush

/-- A run of a block is one or more steps of the run. -/
theorem Sim.runCompiled (hp : p.Plain) {m : Machine} {c : Control} (h : p.Sim n ⟨m, c⟩)
    {block : Block} (hstart : block.start = m.cpu.pc)
    (hcurrent : p.Current n block.start block.words) :
    ∃ j, 1 ≤ j ∧ view (runCompiled ⟨m, c⟩ block) = view (p.runFor (n + j)) ∧
      ((runCompiled ⟨m, c⟩ block).2 = none → p.Sim (n + j) (runCompiled ⟨m, c⟩ block).1) := by
  obtain ⟨hne, hend, k, hk, hkn, hf⟩ := hcurrent
  have hrange := hf.range_le hne
  have hblock : InBlock p k n block.start 0 m := by
    refine ⟨h.running, ?_, hk, hkn⟩
    rw [← h.machine]
    simp [advance, hstart]
  have hzero : block.start + 4 * UInt64.ofNat 0 = block.start := by simp
  have hcount (retired : UInt64) : c.Alike (countRun c retired) := ⟨rfl, rfl, rfl⟩
  have hlater {j : Nat} (hb : p.NoBarrier k (n + j)) : ∀ pc words, p.Current n pc words →
      p.Current (n + j) pc words :=
    fun _ _ => Current.later (Nat.le_add_right n j) fun i hi => hb i (Nat.le_trans hk hi)
  rw [← hzero] at hf
  obtain ⟨j, hj, hafter⟩ := hblock.afterBlock hp hne hend hf (by omega) h.alike
  rw [hzero, Nat.zero_add] at hafter
  refine ⟨j, hj, ?_⟩
  cases hr : Block.runWords block.start block.start block.words m with
  | mk m' result =>
    rw [hr] at hafter
    cases result with
    | error trap =>
      obtain ⟨hb, hview⟩ := hafter
      have hblocks : Control.Holds (p.Current (n + j)) (countRun c ((trap.pc - block.start) / 4)) :=
        (h.blocks.mono (hlater hb)).congr rfl rfl rfl
      rw [runCompiled_of_error hr]
      have hview' :=
        (view_raise (hcount ((trap.pc - block.start) / 4)) _ trap).trans hview.symm
      exact ⟨hview', fun hx => h.of_view hp hview' hx (settings_raise ..) (hblocks.raise _ trap)⟩
    | ok exit =>
      obtain ⟨hb, hview⟩ := hafter
      have hblocks : Control.Holds (p.Current n) (countRun c block.size.toUInt64) :=
        h.blocks.congr rfl rfl rfl
      rw [runCompiled_of_ok hr]
      obtain ⟨next, flush⟩ := exit
      cases flush with
      | false =>
        have hview' := (view_settle (hcount block.size.toUInt64) _).trans hview.symm
        exact ⟨hview', fun hx => h.of_view hp hview' hx rfl
          (hblocks.mono (hlater (hb rfl))).enterBlock⟩
      | true =>
        have halike : c.Alike (countRun c block.size.toUInt64).invalidateAll := ⟨rfl, rfl, rfl⟩
        have hview' := (view_settle halike _).trans hview.symm
        exact ⟨hview', fun hx => h.of_view hp hview' hx rfl hblocks.invalidateAll.enterBlock⟩

/-- **A step of an engine that may compile is one or more steps of the run that interprets.** -/
theorem Sim.step (hp : p.Plain) (h : p.Sim n e) :
    ∃ j, 1 ≤ j ∧ view e.step = view (p.runFor (n + j)) ∧
      (e.step.2 = none → p.Sim (n + j) e.step.1) := by
  obtain ⟨m, c⟩ := e
  have hh : m.cpu.halted = false := by
    have hq := (hp.ongoing h.running).halted
    rwa [← h.machine] at hq
  cases ha : c.atBlockEntry with
  | false =>
    rw [step_of_not_atBlockEntry hh ha]
    exact ⟨1, Nat.le_refl 1, h.interpretOne hp⟩
  | true =>
    have hfetched : Control.FetchedHave (p.Current n) m.mem c.settings.maxBlockLength.toNat := by
      have hm : m.mem = (p.stateAt n).machine.mem := congrArg Machine.mem h.machine
      rw [hm]
      exact p.fetchedHave_current n _
    have hc : Control.Holds (p.Current n) { c with atBlockEntry := false, runLength := 0 } :=
      h.blocks.congr rfl rfl rfl
    have hblocks := hc.visit hfetched m.cpu.pc
    have hkeeps :=
      Control.keeps_visit { c with atBlockEntry := false, runLength := 0 } m.mem m.cpu.pc
    cases hv : Control.visit { c with atBlockEntry := false, runLength := 0 } m.mem m.cpu.pc with
    | mk block? c' =>
      rw [hv] at hblocks hkeeps
      have halike : c.Alike c' := ⟨hkeeps.alike.1, hkeeps.alike.2, hkeeps.alike.3⟩
      have hsim : p.Sim n ⟨m, c'⟩ := ⟨h.running, h.machine, h.alike.trans halike, hblocks⟩
      rw [step_of_visit hh ha hv]
      cases block? with
      | none => exact ⟨1, Nat.le_refl 1, hsim.interpretOne hp⟩
      | some block =>
        obtain ⟨hstart, hcurrent⟩ : block.start = m.cpu.pc ∧ p.Current n m.cpu.pc block.words :=
          hc.of_visit hfetched (by rw [hv])
        exact hsim.runCompiled hp hstart (hstart ▸ hcurrent)

/-! ### Whole runs -/

/-- What happens between two steps without the guest. -/
inductive Background where
  /-- The worker does a job. -/
  | work
  /-- The owner waits for the worker. -/
  | await

/-- The event. -/
def Background.event : Background → Event
  | .work => .work
  | .await => .await

/-- A run in which `schedule n` happens in the background before step `n`. -/
def runWith (schedule : Nat → List Background) (e : Engine) : Nat → Engine × Option Exit
  | 0 => (e, none)
  | n + 1 =>
    match runWith schedule e n with
    | (e, some exit) => (e, some exit)
    | (e, none) => (e.after ((schedule n).map Background.event)).step

theorem Sim.background (h : p.Sim n e) (events : List Background) :
    p.Sim n (e.after (events.map Background.event)) := by
  induction events generalizing e with
  | nil => exact h
  | cons event rest ih =>
    refine ih ?_
    cases event with
    | work =>
      exact ⟨h.running, h.machine, h.alike.trans (Control.keeps_work _).alike, h.blocks.work⟩
    | await =>
      exact ⟨h.running, h.machine, h.alike.trans (Control.keeps_await _).alike, h.blocks.await⟩

/-- The engine that compiles, after `n` steps, is where the run is after `i` steps. -/
def Meets (p e : Engine) (schedule : Nat → List Background) (n i : Nat) : Prop :=
  view (e.runWith schedule n) = view (p.runFor i) ∧
    ((e.runWith schedule n).2 = none → p.Sim i (e.runWith schedule n).1)

theorem Meets.succ (hp : p.Plain) {schedule : Nat → List Background} {i : Nat}
    (h : p.Meets e schedule n i) : ∃ j, i < j ∧ p.Meets e schedule (n + 1) j := by
  obtain ⟨hview, hsim⟩ := h
  unfold Meets
  rw [runWith]
  cases hr : e.runWith schedule n with
  | mk e' exit =>
    rw [hr] at hview hsim
    cases exit with
    | some exit =>
      -- Both runs have ended, and stay as they are.
      have hend : (p.runFor i).2 = some exit := (congrArg View.exit hview).symm
      refine ⟨i + 1, Nat.lt_succ_self i, ?_, fun hx => nomatch hx⟩
      rw [runFor_add_of_some hend]
      exact hview
    | none =>
      obtain ⟨j, hj, hstep⟩ := ((hsim rfl).background (schedule n)).step hp
      exact ⟨i + j, Nat.lt_add_of_pos_right hj, hstep⟩

/-- The steps at which the two runs meet. -/
theorem exists_strides (hp : p.Plain) (h : p.Sim 0 e) (schedule : Nat → List Background) :
    ∃ σ : Nat → Nat, σ 0 = 0 ∧ StrictMono σ ∧ ∀ n, p.Meets e schedule n (σ n) := by
  have hstep : ∀ n i, ∃ j, p.Meets e schedule n i → i < j ∧ p.Meets e schedule (n + 1) j := by
    intro n i
    by_cases hm : p.Meets e schedule n i
    · obtain ⟨j, hj⟩ := hm.succ hp
      exact ⟨j, fun _ => hj⟩
    · exact ⟨0, fun hm' => absurd hm' hm⟩
  choose next hnext using hstep
  let σ : Nat → Nat := fun n => Nat.rec 0 next n
  have hσ : ∀ n, p.Meets e schedule n (σ n) := by
    intro n
    induction n with
    | zero => exact ⟨congrArg₂ (View.mk · · none) h.machine h.alike.traps, fun _ => h⟩
    | succ n ih => exact (hnext n (σ n) ih).2
  exact ⟨σ, rfl, strictMono_nat_of_lt_succ fun n => (hnext n (σ n) (hσ n)).1, hσ⟩

theorem sim_start (mem : Memory) (entry : UInt64) {plain translating : Settings}
    (hstop : translating.stopOnTrap = plain.stopOnTrap)
    (hbase : translating.trapVectorBase = plain.trapVectorBase) :
    (start mem entry plain).Sim 0 (start mem entry translating) :=
  ⟨rfl, rfl, ⟨hstop, hbase, rfl⟩, Control.holds_start _ translating⟩

/-- **Translation is invisible.**  Whatever is compiled, and whenever the worker comes back, the
states of a run are states of the run that interprets, in the same order and with the same number
of traps; and either both runs end in the same way or none does. -/
theorem translation_invisible (mem : Memory) (entry : UInt64) (plain translating : Settings)
    (hplain : plain.jit = false) (hstop : translating.stopOnTrap = plain.stopOnTrap)
    (hbase : translating.trapVectorBase = plain.trapVectorBase)
    (hstable : (start mem entry plain).CodeStable) (schedule : Nat → List Background) :
    (∃ σ : Nat → Nat, σ 0 = 0 ∧ StrictMono σ ∧ ∀ n,
      view ((start mem entry translating).runWith schedule n) =
        view ((start mem entry plain).runFor (σ n))) ∧
    ∀ m exit,
      (∃ n, ((start mem entry translating).runWith schedule n).1.machine = m ∧
        ((start mem entry translating).runWith schedule n).2 = some exit) ↔
      ∃ n, ((start mem entry plain).runFor n).1.machine = m ∧
        ((start mem entry plain).runFor n).2 = some exit := by
  obtain ⟨σ, hσ0, hσ, hmeets⟩ :=
    exists_strides ⟨hplain, rfl, hstable⟩ (sim_start mem entry hstop hbase) schedule
  refine ⟨⟨σ, hσ0, hσ, fun n => (hmeets n).1⟩, fun m exit => ⟨?_, ?_⟩⟩
  · rintro ⟨n, hm, hx⟩
    refine ⟨σ n, ?_, ?_⟩
    · exact (congrArg View.machine (hmeets n).1).symm.trans hm
    · exact (congrArg View.exit (hmeets n).1).symm.trans hx
  · rintro ⟨n, hm, hx⟩
    -- The other run has ended by the time its `n`th stride is done.
    have hend : (start mem entry plain).runFor (σ n) = (start mem entry plain).runFor n := by
      have hadd := runFor_add_of_some hx (σ n - n)
      rwa [Nat.add_sub_of_le (hσ.le_apply)] at hadd
    refine ⟨n, ?_, ?_⟩
    · exact (congrArg View.machine (hmeets n).1).trans (by rw [hend]; exact hm)
    · exact (congrArg View.exit (hmeets n).1).trans (by rw [hend]; exact hx)

/-! ### A run of a compiled block -/

/-- A run that leaves its memory alone has stable code. -/
theorem codeStable_of_mem_eq
    (h : ∀ n, (p.runFor n).2 = none → (p.stateAt n).machine.mem = p.machine.mem) :
    p.CodeStable := by
  intro n hn k hk _ word hw
  rw [h n hn] at hw
  rwa [h k (running_of_le hk hn)]

/-- Interpret every instruction. -/
def interpreting : Settings := { jit := false }

/-- The machine is at one of the two blocks. -/
def InLoop (m : Machine) : Prop :=
  m.mem = pingPong ∧ (m.cpu.pc = 0x1000 ∨ m.cpu.pc = 0x1004)

theorem InLoop.interpretOne {m : Machine} (h : InLoop m) (c : Control) :
    InLoop (interpretOne ⟨m, c⟩).1.machine := by
  obtain ⟨hmem, hpc | hpc⟩ := h
  · have hfetch : Control.fetch m.mem m.cpu.pc = .ok 0xc3e00000 := by
      rw [hmem, hpc]
      decide
    rw [interpretOne_of_fetch hfetch, hpc, (execute_pingPong m).1]
    exact ⟨hmem, .inr rfl⟩
  · have hfetch : Control.fetch m.mem m.cpu.pc = .ok 0xc3fffffe := by
      rw [hmem, hpc]
      decide
    rw [interpretOne_of_fetch hfetch, hpc, (execute_pingPong m).2]
    exact ⟨hmem, .inl rfl⟩

theorem inLoop_stateAt {n : Nat} (hj : p.control.settings.jit = false)
    (hh : p.machine.cpu.halted = false) (h : InLoop p.machine) (hn : (p.runFor n).2 = none) :
    InLoop (p.stateAt n).machine := by
  induction n with
  | zero => exact h
  | succ n ih =>
    have hn' := running_of_le (Nat.le_succ n) hn
    have hview := view_runFor_succ hj hh hn' (Control.Alike.refl _)
    have hmachine : (p.stateAt (n + 1)).machine = _ := congrArg View.machine hview
    rw [hmachine]
    exact (ih hn').interpretOne _

theorem codeStable_pingPong : (start pingPong 0x1000 interpreting).CodeStable :=
  codeStable_of_mem_eq fun _ hn => (inLoop_stateAt rfl rfl ⟨rfl, .inl rfl⟩ hn).1

theorem compile_pingPong :
    ∃ block, Block.compile 0x1000 [0xc3e00000] = .ok block ∧ block.start = 0x1000 ∧
      block.words = [0xc3e00000] := by
  have hhandled : ∀ i ≤ Block.lastIndex [0xc3e00000], ∀ word,
      [(0xc3e00000 : UInt32)][i]? = some word → Block.handled word = true := by
    intro i _ word hword
    obtain rfl := List.mem_singleton.1 (List.mem_of_getElem? hword)
    rw [Block.handled, ofInstruction?_pingPong.1]
    rfl
  obtain ⟨object, hcompile⟩ :=
    Block.exists_compile_of_handled 0x1000 (List.cons_ne_nil _ _) hhandled
  have hwords : Block.upToEnd [0xc3e00000] = [0xc3e00000] := by decide
  exact ⟨_, hcompile, rfl, hwords⟩

theorem runWords_pingPong (m : Machine) :
    Block.runWords 0x1000 0x1000 [0xc3e00000] m = (m, .ok (0x1004, false)) := by
  have hword : Block.runWord 0x1000 0x1000 0xc3e00000 m = .done m (.jump 0x1004) := by
    rw [runWord_eq_map, (execute_pingPong _).1]
    rfl
  exact Block.runWords_of_last hword

/-- If the worker has done its job when execution is back at the first block, the visit takes in the
block and hands over the second one. -/
theorem WentRound.visit_work {e e' : Engine} {block : Block} (hround : WentRound e e' {})
    (h : AtFirst e {}) (hcompile : Block.compile 0x1000 [0xc3e00000] = .ok block) :
    ∃ c, Control.visit { e'.control.work with atBlockEntry := false, runLength := 0 }
        e'.machine.mem e'.machine.cpu.pc = (some block, c) ∧
      c.blocks[(0x1000 : UInt64)]? = some (.compiled block) ∧
      c.stats = { e'.control.stats with
        compilations := e'.control.stats.compilations + 1 } := by
  obtain ⟨-, hpc, hmem⟩ := hround.back h
  obtain ⟨m, settings, blocks, epoch, stats, worker, entry, runLength, deferred⟩ := e'
  obtain ⟨-, hsettings, -, hepoch, -, hfirst, hsecond, hdeferred, hworker⟩ := hround
  dsimp only at hpc hmem hsettings hepoch hfirst hsecond hdeferred hworker
  subst hsettings hepoch hdeferred hworker
  let done : Compiled := CompileJob.finish ⟨0x1000, [0xc3e00000], e.control.epoch⟩
  let c₀ : Control := ⟨hotAtOnce, blocks, e.control.epoch, stats, some ⟨[], [done], 1⟩, false, 0,
    some 0x1004⟩
  let c₁ : Control := Control.setEntry { c₀ with worker := some {} } 0x1000 (.compiled block)
  let c₂ : Control := c₁.handedOver {} 0x1004 [0xc3fffffe]
  have hdrain : c₀.drain = c₁ := by
    have hexpects : Control.Expects { c₀ with worker := some {} } done :=
      ⟨rfl, Control.isCompiling_iff.2 hfirst⟩
    rw [Control.drain_eq (c := c₀) rfl]
    refine (Control.accept_of_expects hexpects).trans ?_
    show Control.install _ 0x1000 (Block.compile 0x1000 [0xc3e00000]) = c₁
    rw [hcompile]
    rfl
  have hready : c₀.drain.submitDeferred pingPong 0x1000 = c₂ := by
    have hfetched : Control.fetchBlock pingPong hotAtOnce.maxBlockLength.toNat 0x1004 =
        .ok [0xc3fffffe] := by decide
    rw [hdrain]
    refine Control.submitDeferred_of_isOpen rfl rfl (by decide) ?_ hfetched
    rw [Control.getElem?_setEntry, if_neg (by decide)]
    show blocks[(0x1004 : UInt64)]?.any Entry.isOpen = true
    rw [hsecond]
    rfl
  have hinstalled : c₂.blocks[(0x1000 : UInt64)]? = some (.compiled block) := by
    rw [Control.getElem?_handedOver, if_neg (by decide), Control.getElem?_setEntry, if_pos rfl]
  refine ⟨c₂, ?_, hinstalled, rfl⟩
  show c₀.visit m.mem m.cpu.pc = _
  rw [hmem, hpc]
  exact Control.visit_of_compiled rfl hready hinstalled

/-- The block that was taken in is run. -/
theorem WentRound.runsCompiled {e e' : Engine} {block : Block} (hround : WentRound e e' {})
    (h : AtFirst e {}) (hcompile : Block.compile 0x1000 [0xc3e00000] = .ok block)
    (hstart : block.start = 0x1000) (hwords : block.words = [0xc3e00000]) :
    ∃ e'', e'.work.step = (e'', none) ∧
      e''.control.blocks[(0x1000 : UInt64)]? = some (.compiled block) ∧
      e''.control.stats = { e'.control.stats with
        compilations := e'.control.stats.compilations + 1
        compiledRuns := e'.control.stats.compiledRuns + 1
        compiledInstructions := e'.control.stats.compiledInstructions + 1 } := by
  obtain ⟨hhalted, -, -⟩ := hround.back h
  obtain ⟨c, hvisit, hinstalled, hstats⟩ := hround.visit_work h hcompile
  have hrun : Block.runWords block.start block.start block.words e'.machine =
      (e'.machine, .ok (0x1004, false)) := by
    rw [hstart, hwords]
    exact runWords_pingPong e'.machine
  have hone : block.size.toUInt64 = 1 := by
    rw [Block.size, hwords]
    rfl
  have hstep : e'.work.step = runCompiled ⟨e'.machine, c⟩ block :=
    step_of_visit (c := e'.control.work) hhalted hround.atBlockEntry hvisit
  refine ⟨⟨advance e'.machine 0x1004 1, (countRun c 1).enterBlock⟩, hstep.trans ?_, hinstalled, ?_⟩
  · rw [runCompiled_of_ok hrun, hone]
    show (_, if e'.machine.cpu.halted then some Exit.halted else none) = _
    rw [hhalted]
    rfl
  · show { c.stats with
      compiledRuns := c.stats.compiledRuns + 1
      compiledInstructions := c.stats.compiledInstructions + 1 } = _
    rw [hstats]

/-- The first block is submitted in the second step.  If the worker does its job before the third
one, this step installs the block and runs it. -/
theorem runWith_pingPong :
    ∃ block e, Block.compile 0x1000 [0xc3e00000] = .ok block ∧
      (start pingPong 0x1000 hotAtOnce).runWith (fun n => if n = 2 then [.work] else []) 3 =
        (e, none) ∧
      e.control.blocks[(0x1000 : UInt64)]? = some (.compiled block) ∧
      e.control.stats =
        { interpreted := 2, compiledRuns := 1, compiledInstructions := 1, compilations := 2 } := by
  obtain ⟨block, hcompile, hstart, hwords⟩ := compile_pingPong
  obtain ⟨e₁, e₂, hstep₁, hstep₂, hround⟩ := atFirst_start.goesRound
  obtain ⟨e₃, hstep₃, hinstalled, hstats⟩ :=
    hround.runsCompiled atFirst_start hcompile hstart hwords
  have hrun₁ : (start pingPong 0x1000 hotAtOnce).runWith
      (fun n => if n = 2 then [.work] else []) 1 = (e₁, none) := hstep₁
  have hrun₂ : (start pingPong 0x1000 hotAtOnce).runWith
      (fun n => if n = 2 then [.work] else []) 2 = (e₂, none) := by
    rw [runWith, hrun₁]
    exact hstep₂
  refine ⟨block, e₃, hcompile, ?_, hinstalled, ?_⟩
  · rw [runWith, hrun₂]
    exact hstep₃
  · rw [hstats, hround.stats]
    rfl

/-- The worker compiles a block, and the run goes on through the compiled code. -/
theorem translation_invisible_pingPong :
    let schedule : Nat → List Background := fun n => if n = 2 then [.work] else []
    let translating := start pingPong 0x1000 hotAtOnce
    let plain := start pingPong 0x1000 interpreting
    plain.CodeStable ∧
      (∃ σ : Nat → Nat, σ 0 = 0 ∧ StrictMono σ ∧ ∀ n,
        view (translating.runWith schedule n) = view (plain.runFor (σ n))) ∧
      ∃ block, Block.compile 0x1000 [0xc3e00000] = .ok block ∧
        (translating.runWith schedule 3).1.control.blocks[(0x1000 : UInt64)]? =
          some (.compiled block) ∧
        (translating.runWith schedule 3).1.control.stats =
          { interpreted := 2, compiledRuns := 1, compiledInstructions := 1,
            compilations := 2 } := by
  intro schedule translating plain
  obtain ⟨block, e, hcompile, hrun, hinstalled, hstats⟩ := runWith_pingPong
  have hvisible := translation_invisible pingPong 0x1000 interpreting hotAtOnce rfl rfl rfl
    codeStable_pingPong schedule
  refine ⟨codeStable_pingPong, hvisible.1, block, hcompile, ?_, ?_⟩
  · rw [hrun]
    exact hinstalled
  · rw [hrun]
    exact hstats

end Engine

end AlphaMachine
