import AlphaMachine.Engine.Step
import AlphaMachine.Proofs.Engine.Fetch

/-!
# What the control may hold

A block gets into the table in one way: its words are fetched, compiled, perhaps by the worker,
and installed if no invalidation has happened since.  `Control.Holds P` says that `P` holds of
every block on this way: of the compiled ones, and of those whose compilation is under way or
finished and belongs to the current epoch.

`Control.Holds` is kept by every operation of the control, provided that `P` holds of what can be
fetched (`Control.FetchedHave`), and `Control.Holds.invalidateAll` shows why epochs matter: after
an invalidation of everything, nothing from before counts, so any property holds.
-/

namespace AlphaMachine

/-! ### Compilation -/

theorem Block.of_compile {start : UInt64} {words : List UInt32} {block : Block}
    (h : Block.compile start words = .ok block) :
    words ≠ [] ∧ block.start = start ∧ block.words = Block.upToEnd words := by
  obtain ⟨hne, body, object, -, -, rfl⟩ := Block.exists_body_of_compile h
  exact ⟨hne, rfl, rfl⟩

theorem Block.upToEnd_ne_nil {words : List UInt32} (h : words ≠ []) : Block.upToEnd words ≠ [] := by
  cases words with
  | nil => exact absurd rfl h
  | cons word rest => simp [Block.upToEnd]

namespace Control

/-! ### The invariant -/

/-- A property of blocks, by their entry and their words. -/
abbrev BlockProperty := UInt64 → List UInt32 → Prop

variable {P Q : BlockProperty} {c c' : Control}

/-- The result of a compilation has the property if it is a block. -/
def ResultHas (P : BlockProperty) (start : UInt64) (result : Except CompileError Block) : Prop :=
  ∀ block, result = .ok block → block.start = start ∧ P start block.words

/-- Every block that is in the table, or can still get there, has the property. -/
structure Holds (P : BlockProperty) (c : Control) : Prop where
  /-- Blocks in the table. -/
  compiled : ∀ {pc : UInt64} {block : Block}, c.blocks[pc]? = some (.compiled block) →
    block.start = pc ∧ P pc block.words
  /-- Jobs of the worker. -/
  jobs : ∀ {w : Worker}, c.worker = some w → ∀ job ∈ w.jobs, job.epoch ≤ c.epoch ∧
    (job.epoch = c.epoch → ResultHas P job.start job.finish.result)
  /-- Finished compilations that were not taken in. -/
  finished : ∀ {w : Worker}, c.worker = some w → ∀ done ∈ w.finished, done.epoch ≤ c.epoch ∧
    (done.epoch = c.epoch → ResultHas P done.start done.result)

/-- The blocks that can be fetched have the property. -/
def FetchedHave (P : BlockProperty) (mem : Memory) (limit : Nat) : Prop :=
  ∀ ⦃pc : UInt64⦄ ⦃words : List UInt32⦄, words ≠ [] → fetchBlock mem limit pc = .ok words →
    P pc words

theorem resultHas_compile {mem : Memory} {limit : Nat} (hP : FetchedHave P mem limit)
    {pc : UInt64} {words : List UInt32} (h : fetchBlock mem limit pc = .ok words) :
    ResultHas P pc (Block.compile pc words) := by
  intro block hb
  obtain ⟨hne, hstart, hwords⟩ := Block.of_compile hb
  refine ⟨hstart, ?_⟩
  rw [hwords, upToEnd_of_fetchBlock h]
  exact hP hne h

theorem ResultHas.mono (hPQ : ∀ pc words, P pc words → Q pc words) {start : UInt64}
    {result : Except CompileError Block} (h : ResultHas P start result) :
    ResultHas Q start result :=
  fun block hb => ⟨(h block hb).1, hPQ _ _ (h block hb).2⟩

theorem Holds.mono (hPQ : ∀ pc words, P pc words → Q pc words) (h : Holds P c) : Holds Q c where
  compiled hb := ⟨(h.compiled hb).1, hPQ _ _ (h.compiled hb).2⟩
  jobs hw job hj := ⟨(h.jobs hw job hj).1, fun he => ((h.jobs hw job hj).2 he).mono hPQ⟩
  finished hw done hd :=
    ⟨(h.finished hw done hd).1, fun he => ((h.finished hw done hd).2 he).mono hPQ⟩

/-- Only the table, the worker and the epoch matter. -/
theorem Holds.congr (h : Holds P c) (hb : c'.blocks = c.blocks) (hw : c'.worker = c.worker)
    (he : c'.epoch = c.epoch) : Holds P c' where
  compiled hc := h.compiled (hb ▸ hc)
  jobs hw' := he ▸ h.jobs (hw ▸ hw')
  finished hw' := he ▸ h.finished (hw ▸ hw')

theorem holds_start (P : BlockProperty) (settings : Settings) : Holds P (start settings) where
  compiled hb := by simp [start] at hb
  jobs hw job hj := by
    simp only [start] at hw
    split at hw <;> cases hw
    cases hj
  finished hw done hd := by
    simp only [start] at hw
    split at hw <;> cases hw
    cases hd

theorem Holds.enterBlock (h : Holds P c) : Holds P c.enterBlock := h.congr rfl rfl rfl

/-! ### Entries -/

theorem getElem?_setEntry (c : Control) (pc pc' : UInt64) (entry : Entry) :
    (c.setEntry pc entry).blocks[pc']? = if pc = pc' then some entry else c.blocks[pc']? := by
  simp only [setEntry, Std.HashMap.getElem?_insert, beq_iff_eq]

theorem Holds.setEntry (h : Holds P c) (pc : UInt64) (entry : Entry)
    (he : ∀ block, entry = .compiled block → block.start = pc ∧ P pc block.words) :
    Holds P (c.setEntry pc entry) where
  compiled {pc' block} hb := by
    rw [getElem?_setEntry] at hb
    split at hb
    · next heq =>
      subst heq
      exact he block (Option.some.inj hb)
    · exact h.compiled hb
  jobs := h.jobs
  finished := h.finished

theorem Holds.fail (h : Holds P c) (pc : UInt64) : Holds P (c.fail pc) := by
  have hc : Holds P { c with stats.compileFailures := c.stats.compileFailures + 1 } :=
    h.congr rfl rfl rfl
  exact hc.setEntry pc .failed fun block hb => nomatch hb

theorem Holds.install (h : Holds P c) {pc : UInt64} {result : Except CompileError Block}
    (hr : ResultHas P pc result) : Holds P (c.install pc result) := by
  cases result with
  | error err => exact h.fail pc
  | ok block =>
    refine h.setEntry pc (.compiled block) ?_
    rintro block' hb
    cases hb
    exact hr block rfl

/-! ### The worker -/

theorem Holds.submit (h : Holds P c) {w : Worker} (hw : c.worker = some w) {job : CompileJob}
    (hj : job.epoch = c.epoch) (hr : ResultHas P job.start job.finish.result) :
    Holds P { c with worker := some (w.submit job) } where
  compiled := h.compiled
  jobs hw' job' hj' := by
    cases hw'
    rcases List.mem_append.1 hj' with hm | hm
    · exact h.jobs hw job' hm
    · cases List.mem_singleton.1 hm
      exact ⟨Nat.le_of_eq hj, fun _ => hr⟩
  finished hw' done hd := by
    cases hw'
    exact h.finished hw done hd

/-- A finished job is as good as the job. -/
theorem Holds.work (h : Holds P c) : Holds P c.work where
  compiled := h.compiled
  jobs {w'} hw' job hj := by
    obtain ⟨w, hw, rfl⟩ := Option.map_eq_some_iff.1 hw'
    refine h.jobs hw job ?_
    unfold Worker.work at hj
    split at hj
    · exact hj
    · next heq => rw [heq]; exact List.mem_cons_of_mem _ hj
  finished {w'} hw' done hd := by
    obtain ⟨w, hw, rfl⟩ := Option.map_eq_some_iff.1 hw'
    unfold Worker.work at hd
    split at hd
    · exact h.finished hw done hd
    · next job rest heq =>
      rcases List.mem_append.1 hd with hm | hm
      · exact h.finished hw done hm
      · cases List.mem_singleton.1 hm
        exact h.jobs hw job (by rw [heq]; exact List.mem_cons_self)

theorem Holds.accept (h : Holds P c) {done : Compiled}
    (hd : done.epoch = c.epoch → ResultHas P done.start done.result) : Holds P (c.accept done) := by
  unfold Control.accept
  split
  · next hc => exact h.install (hd hc.1)
  · exact h

@[simp]
theorem epoch_install (c : Control) (pc : UInt64) (result : Except CompileError Block) :
    (c.install pc result).epoch = c.epoch := by
  cases result <;> rfl

@[simp]
theorem epoch_accept (c : Control) (done : Compiled) : (c.accept done).epoch = c.epoch := by
  unfold Control.accept
  split
  · exact epoch_install ..
  · rfl

theorem Holds.acceptAll {l : List Compiled} (h : Holds P c)
    (hl : ∀ done ∈ l, done.epoch = c.epoch → ResultHas P done.start done.result) :
    Holds P (l.foldl Control.accept c) := by
  induction l generalizing c with
  | nil => exact h
  | cons done rest ih =>
    rw [List.foldl_cons]
    refine ih (h.accept (hl done List.mem_cons_self)) fun d hd he => ?_
    exact hl d (List.mem_cons_of_mem _ hd) (he.trans (epoch_accept c done))

theorem Holds.drain (h : Holds P c) : Holds P c.drain := by
  unfold Control.drain
  split
  · exact h
  · next w hw =>
    refine Holds.acceptAll ⟨h.compiled, ?_, ?_⟩ fun done hd he => (h.finished hw done hd).2 he
    · intro w' hw' job hj
      cases hw'
      exact h.jobs hw job hj
    · intro w' hw' done hd
      cases hw'
      cases hd

theorem Holds.workAll (h : Holds P c) {w : Worker} (hw : c.worker = some w) {done : Compiled}
    (hd : done ∈ w.workAll.finished) :
    done.epoch ≤ c.epoch ∧ (done.epoch = c.epoch → ResultHas P done.start done.result) := by
  rcases List.mem_append.1 hd with hm | hm
  · exact h.finished hw done hm
  · obtain ⟨job, hj, rfl⟩ := List.mem_map.1 hm
    exact h.jobs hw job hj

theorem Holds.await (h : Holds P c) : Holds P c.await := by
  unfold Control.await
  split
  · exact h
  · next w hw =>
    refine Holds.acceptAll ⟨h.compiled, ?_, ?_⟩ fun done hd he =>
      (h.workAll hw (List.mem_of_mem_take hd)).2 he
    · intro w' hw' job hj
      cases hw'
      cases hj
    · intro w' hw' done hd
      cases hw'
      exact h.workAll hw (List.mem_of_mem_drop hd)

/-! ### Invalidation -/

/-- A compilation that is under way does not outlive an invalidation. -/
theorem Holds.newEpoch (h : Holds P c) {blocks : BlockTable}
    (hb : ∀ {pc : UInt64} {block : Block}, blocks[pc]? = some (.compiled block) →
      block.start = pc ∧ Q pc block.words) : Holds Q (c.newEpoch blocks) where
  compiled := hb
  jobs hw job hj := by
    have hle := (h.jobs hw job hj).1
    simp only [Control.newEpoch]
    exact ⟨by omega, fun he => by omega⟩
  finished hw done hd := by
    have hle := (h.finished hw done hd).1
    simp only [Control.newEpoch]
    exact ⟨by omega, fun he => by omega⟩

theorem getElem?_invalidate (c : Control) (address pc : UInt64) :
    (c.invalidate address).blocks[pc]? =
      c.blocks[pc]?.filter (Entry.survives address pc) := by
  simp only [invalidate, Control.newEpoch]
  rw [Std.HashMap.getElem?_filter']

theorem Holds.invalidate (h : Holds P c) (address : UInt64) : Holds P (c.invalidate address) := by
  refine h.newEpoch fun hb => h.compiled ?_
  have hb' := (getElem?_invalidate c address _).symm.trans hb
  exact (Option.filter_eq_some_iff.1 hb').1

/-- After everything was invalidated, nothing that was fetched before can be run. -/
theorem Holds.invalidateAll (h : Holds P c) : Holds Q c.invalidateAll :=
  h.newEpoch fun hb => by simp at hb

/-! ### What visits leave alone -/

/-- What visits and the worker leave alone. -/
structure Keeps (c c' : Control) : Prop where
  /-- The settings never change. -/
  settings : c'.settings = c.settings
  /-- Only invalidations begin an epoch. -/
  epoch : c'.epoch = c.epoch
  /-- The position in the block belongs to the engine. -/
  atBlockEntry : c'.atBlockEntry = c.atBlockEntry
  /-- The position in the block belongs to the engine. -/
  runLength : c'.runLength = c.runLength
  /-- Executed instructions are counted by the engine. -/
  interpreted : c'.stats.interpreted = c.stats.interpreted
  /-- Executed instructions are counted by the engine. -/
  compiledInstructions : c'.stats.compiledInstructions = c.stats.compiledInstructions
  /-- Traps are counted by the engine. -/
  traps : c'.stats.traps = c.stats.traps

theorem Keeps.refl (c : Control) : c.Keeps c := ⟨rfl, rfl, rfl, rfl, rfl, rfl, rfl⟩

theorem Keeps.trans {c₁ c₂ c₃ : Control} (h : c₁.Keeps c₂) (h' : c₂.Keeps c₃) : c₁.Keeps c₃ :=
  ⟨h'.settings.trans h.settings, h'.epoch.trans h.epoch, h'.atBlockEntry.trans h.atBlockEntry,
    h'.runLength.trans h.runLength, h'.interpreted.trans h.interpreted,
    h'.compiledInstructions.trans h.compiledInstructions, h'.traps.trans h.traps⟩

theorem keeps_install (c : Control) (pc : UInt64) (result : Except CompileError Block) :
    c.Keeps (c.install pc result) := by
  cases result <;> exact ⟨rfl, rfl, rfl, rfl, rfl, rfl, rfl⟩

theorem keeps_compile (c : Control) (mem : Memory) (pc : UInt64) : c.Keeps (c.compile mem pc) := by
  have hc : c.Keeps
      ({ c with stats.compilations := c.stats.compilations + 1 }.setEntry pc .compiling) :=
    ⟨rfl, rfl, rfl, rfl, rfl, rfl, rfl⟩
  unfold Control.compile
  refine hc.trans ?_
  dsimp only
  split
  · exact ⟨rfl, rfl, rfl, rfl, rfl, rfl, rfl⟩
  · split
    · exact ⟨rfl, rfl, rfl, rfl, rfl, rfl, rfl⟩
    · exact keeps_install ..

theorem keeps_acceptAll (l : List Compiled) (c : Control) : c.Keeps (l.foldl accept c) := by
  induction l generalizing c with
  | nil => exact Keeps.refl c
  | cons done rest ih =>
    rw [List.foldl_cons]
    refine Keeps.trans ?_ (ih _)
    unfold accept
    split
    · exact keeps_install ..
    · exact Keeps.refl c

theorem keeps_drain (c : Control) : c.Keeps c.drain := by
  unfold drain
  split
  · exact Keeps.refl c
  · next w _ =>
    have hc : c.Keeps { c with worker := some w.receive.2 } := ⟨rfl, rfl, rfl, rfl, rfl, rfl, rfl⟩
    exact hc.trans (keeps_acceptAll w.receive.1 _)

theorem keeps_await (c : Control) : c.Keeps c.await := by
  unfold await
  split
  · exact Keeps.refl c
  · next w _ =>
    have hc : c.Keeps { c with worker := some w.receiveAll.2 } :=
      ⟨rfl, rfl, rfl, rfl, rfl, rfl, rfl⟩
    exact hc.trans (keeps_acceptAll w.receiveAll.1 _)

theorem keeps_work (c : Control) : c.Keeps c.work := ⟨rfl, rfl, rfl, rfl, rfl, rfl, rfl⟩

theorem keeps_submitDeferred (c : Control) (mem : Memory) (pc : UInt64) :
    c.Keeps (c.submitDeferred mem pc) := by
  unfold submitDeferred
  split
  · exact Keeps.refl c
  · have hc : c.Keeps { c with deferred := none } := ⟨rfl, rfl, rfl, rfl, rfl, rfl, rfl⟩
    dsimp only
    split
    · exact Keeps.refl c
    · split
      · exact hc.trans (keeps_compile ..)
      · exact hc

theorem keeps_countVisit (c : Control) (mem : Memory) (pc : UInt64) (hits : Nat) (pinned : Bool) :
    c.Keeps (c.countVisit mem pc hits pinned) := by
  have hc : c.Keeps (c.setEntry pc (.interpreting (min (hits + 1) Entry.maxHits) pinned)) :=
    ⟨rfl, rfl, rfl, rfl, rfl, rfl, rfl⟩
  unfold countVisit
  dsimp only
  split
  · exact hc
  · split
    · exact ⟨rfl, rfl, rfl, rfl, rfl, rfl, rfl⟩
    · exact hc.trans (keeps_compile ..)

theorem keeps_visit (c : Control) (mem : Memory) (pc : UInt64) : c.Keeps (c.visit mem pc).2 := by
  unfold visit
  split
  · have hc : c.Keeps (c.drain.submitDeferred mem pc) :=
      (keeps_drain c).trans (keeps_submitDeferred ..)
    dsimp only
    split
    · exact hc
    · exact hc
    · exact hc.trans (keeps_countVisit ..)
  · exact Keeps.refl c

/-! ### Visits -/

theorem Holds.compile (h : Holds P c) {mem : Memory}
    (hP : FetchedHave P mem c.settings.maxBlockLength.toNat) (pc : UInt64) :
    Holds P (c.compile mem pc) := by
  have hs : Holds P { c with stats.compilations := c.stats.compilations + 1 } :=
    h.congr rfl rfl rfl
  have hc := hs.setEntry pc .compiling fun block hb => nomatch hb
  unfold Control.compile
  dsimp only
  split
  · exact hc.fail pc
  · next words hw =>
    have hr := resultHas_compile hP hw
    split
    · next w hwk => exact hc.submit hwk rfl hr
    · exact hc.install hr

theorem Holds.submitDeferred (h : Holds P c) {mem : Memory}
    (hP : FetchedHave P mem c.settings.maxBlockLength.toNat) (pc : UInt64) :
    Holds P (c.submitDeferred mem pc) := by
  unfold Control.submitDeferred
  split
  · exact h
  · next entry _ =>
    have hc : Holds P { c with deferred := none } := h.congr rfl rfl rfl
    dsimp only
    split
    · exact h
    · split
      · exact hc.compile hP entry
      · exact hc

theorem Holds.countVisit (h : Holds P c) {mem : Memory}
    (hP : FetchedHave P mem c.settings.maxBlockLength.toNat) (pc : UInt64) (hits : Nat)
    (pinned : Bool) : Holds P (c.countVisit mem pc hits pinned) := by
  have hc : Holds P (c.setEntry pc (.interpreting (min (hits + 1) Entry.maxHits) pinned)) :=
    h.setEntry pc _ fun block hb => nomatch hb
  unfold Control.countVisit
  dsimp only
  split
  · exact hc
  · split
    · exact hc.congr rfl rfl rfl
    · exact hc.compile hP pc

theorem Holds.visit (h : Holds P c) {mem : Memory}
    (hP : FetchedHave P mem c.settings.maxBlockLength.toNat) (pc : UInt64) :
    Holds P (c.visit mem pc).2 := by
  unfold Control.visit
  split
  · have hk := (keeps_drain c).trans (keeps_submitDeferred c.drain mem pc)
    have hc : Holds P (c.drain.submitDeferred mem pc) :=
      h.drain.submitDeferred (by rwa [(keeps_drain c).settings]) pc
    dsimp only
    split
    · exact hc
    · exact hc
    · exact hc.countVisit (by rwa [hk.settings]) pc _ _
  · exact h

/-- The block that a visit finds is in the table. -/
theorem getElem?_visit {mem : Memory} {pc : UInt64} {block : Block}
    (h : (c.visit mem pc).1 = some block) :
    (c.visit mem pc).2.blocks[pc]? = some (.compiled block) := by
  unfold visit at h ⊢
  split at h
  · next hj =>
    dsimp only at h ⊢
    rw [if_pos hj]
    split at h
    · next block' hb =>
      cases h
      cases he : (c.drain.submitDeferred mem pc).blocks[pc]? with
      | none => rw [he] at hb; cases hb
      | some entry =>
        rw [he] at hb
        cases hb
        rfl
    · cases h
    · obtain ⟨entry, he, hblock⟩ := Option.bind_eq_some_iff.1 h
      cases entry <;> cases hblock
      exact he
  · cases h

/-- The block that a visit finds starts where the visit is, and has the property. -/
theorem Holds.of_visit (h : Holds P c) {mem : Memory}
    (hP : FetchedHave P mem c.settings.maxBlockLength.toNat) {pc : UInt64} {block : Block}
    (hv : (c.visit mem pc).1 = some block) : block.start = pc ∧ P pc block.words :=
  (h.visit hP pc).compiled (getElem?_visit hv)

end Control

end AlphaMachine
