import AlphaMachine.Proofs.Engine.Blocks

/-!
# Compilations under way

An entry is marked as compiling when a job for it is handed to the worker, and the mark is taken
away when the job comes back, or earlier, when an invalidation begins a new epoch.  So a message of
an old epoch may belong to an entry that is not marked, or that was marked again since, for another
job.  What ties the marks to the messages is the current epoch:

* `Control.Tracks` : an entry is marked if and only if there is a message of the current epoch for
  it, and there is never more than one;
* `Control.Attended` : the engine keeps track of its worker, and counts all its messages.

Taking in a message removes its mark (`Control.Tracks.accept`), and a new epoch removes all marks
(`Control.Tracks.newEpoch`); the rest of this file carries the two through every operation of the
control, up to `Control.Attended.visit`, which also says what a visit hands to the worker.
-/

namespace AlphaMachine

/-! ### Messages -/

/-- The message is about the entry `start` in `epoch`. -/
def Compiled.isFor (start : UInt64) (epoch : Nat) (done : Compiled) : Bool :=
  done.start = start && done.epoch = epoch

namespace Worker

/-- What will come back from the worker: the finished compilations, then the jobs. -/
def outstanding (w : Worker) : List Compiled := w.finished ++ w.jobs.map CompileJob.finish

theorem outstanding_work (w : Worker) : w.work.outstanding = w.outstanding := by
  unfold work
  split
  · rfl
  · next job rest hjobs => simp [outstanding, hjobs]

theorem outstanding_submit (w : Worker) (job : CompileJob) :
    (w.submit job).outstanding = w.outstanding ++ [job.finish] := by
  simp [outstanding, submit]

/-- Every job that was submitted and has not come back is in one of the queues. -/
def Balanced (w : Worker) : Prop := w.inFlight = w.jobs.length + w.finished.length

theorem Balanced.work {w : Worker} (h : w.Balanced) : w.work.Balanced := by
  unfold Worker.work
  split
  · exact h
  · next job rest hjobs =>
    simp only [Balanced, hjobs, List.length_cons, List.length_append, List.length_nil] at h ⊢
    omega

theorem Balanced.submit {w : Worker} (h : w.Balanced) (job : CompileJob) :
    (w.submit job).Balanced := by
  simp only [Balanced, Worker.submit, List.length_append, List.length_cons, List.length_nil] at h ⊢
  omega

theorem Balanced.receive {w : Worker} (h : w.Balanced) : w.receive.2.Balanced := by
  simp only [Balanced, Worker.receive, List.length_nil] at h ⊢
  omega

/-- As the count is right, waiting for that many results receives everything. -/
theorem Balanced.receiveAll {w : Worker} (h : w.Balanced) : w.receiveAll = (w.outstanding, {}) := by
  have hlength : w.inFlight = w.outstanding.length := by
    simp only [Balanced, outstanding, List.length_append, List.length_map] at h ⊢
    omega
  have htake : w.outstanding.take w.inFlight = w.outstanding := by rw [hlength, List.take_length]
  have hdrop : w.outstanding.drop w.inFlight = [] := by rw [hlength, List.drop_length]
  unfold Worker.receiveAll
  change (w.outstanding.take w.inFlight, Worker.mk [] (w.outstanding.drop w.inFlight)
    (w.inFlight - (w.outstanding.take w.inFlight).length)) = _
  rw [htake, hdrop, hlength, Nat.sub_self]

end Worker

namespace Control

variable {c c' : Control} {w : Worker} {messages : List Compiled}

/-! ### Marks -/

/-- The entry is marked as compiling. -/
def isCompiling (c : Control) (pc : UInt64) : Bool := c.blocks[pc]?.any Entry.isCompiling

theorem isCompiling_iff {pc : UInt64} :
    c.isCompiling pc = true ↔ c.blocks[pc]? = some .compiling := by
  unfold isCompiling
  cases c.blocks[pc]? with
  | none => simp
  | some entry => cases entry <;> simp [Entry.isCompiling]

theorem isCompiling_setEntry (c : Control) (pc pc' : UInt64) (entry : Entry) :
    (c.setEntry pc entry).isCompiling pc' =
      if pc = pc' then entry.isCompiling else c.isCompiling pc' := by
  unfold isCompiling
  rw [getElem?_setEntry]
  split <;> rfl

theorem isCompiling_of_isOpen {pc : UInt64} (h : c.blocks[pc]?.any Entry.isOpen = true) :
    c.isCompiling pc = false := by
  unfold isCompiling
  cases hb : c.blocks[pc]? with
  | none => rfl
  | some entry =>
    rw [hb] at h
    cases entry with
    | compiling => cases h
    | interpreting hits pinned => rfl
    | compiled block => rfl

theorem isCompiling_of_interpreting {pc : UInt64} {hits : Nat} {pinned : Bool}
    (h : c.blocks[pc]?.getD .unvisited = .interpreting hits pinned) : c.isCompiling pc = false := by
  unfold isCompiling
  cases hb : c.blocks[pc]? with
  | none => rfl
  | some entry =>
    rw [hb] at h
    cases h
    rfl

/-- Each mark stands for one message of the current epoch, and each such message for a mark. -/
structure Tracks (c : Control) (messages : List Compiled) : Prop where
  /-- No message is from the future. -/
  epoch_le : ∀ done ∈ messages, done.epoch ≤ c.epoch
  /-- One message for each marked entry, none for the others. -/
  count : ∀ pc, messages.countP (Compiled.isFor pc c.epoch) = if c.isCompiling pc then 1 else 0

/-- Only the marks and the epoch matter. -/
theorem Tracks.congr (h : c.Tracks messages) (hb : ∀ pc, c'.isCompiling pc = c.isCompiling pc)
    (he : c'.epoch = c.epoch) : c'.Tracks messages where
  epoch_le done hd := he ▸ h.epoch_le done hd
  count pc := by rw [he, hb, h.count]

/-- An entry that is not marked may change as long as it does not become marked. -/
theorem Tracks.setEntry (h : c.Tracks messages) {pc : UInt64} {entry : Entry}
    (hpc : c.isCompiling pc = false) (hentry : entry.isCompiling = false) :
    (c.setEntry pc entry).Tracks messages := by
  refine h.congr (fun pc' => ?_) rfl
  rw [isCompiling_setEntry]
  split
  · next heq => rw [← heq, hpc, hentry]
  · rfl

/-- A mark and its message come together. -/
theorem Tracks.mark (h : c.Tracks messages) (done : Compiled)
    (hpc : c.isCompiling done.start = false) (he : done.epoch = c.epoch) :
    (c.setEntry done.start .compiling).Tracks (messages ++ [done]) where
  epoch_le d hd := by
    rcases List.mem_append.1 hd with hm | hm
    · exact h.epoch_le d hm
    · rw [List.mem_singleton.1 hm]
      exact Nat.le_of_eq he
  count pc := by
    have hcount := h.count pc
    change (messages ++ [done]).countP (Compiled.isFor pc c.epoch) = _
    rw [List.countP_append, isCompiling_setEntry, hcount]
    by_cases hstart : done.start = pc
    · subst hstart
      simp [Compiled.isFor, he, hpc, Entry.isCompiling]
    · simp [Compiled.isFor, hstart]

/-- A mark and its message go together. -/
theorem Tracks.unmark {done : Compiled} (h : c.Tracks (done :: messages))
    (he : done.epoch = c.epoch) {entry : Entry} (hentry : entry.isCompiling = false) :
    (c.setEntry done.start entry).Tracks messages where
  epoch_le d hd := h.epoch_le d (List.mem_cons_of_mem _ hd)
  count pc := by
    have hcount := h.count pc
    change messages.countP (Compiled.isFor pc c.epoch) = _
    rw [isCompiling_setEntry]
    by_cases hstart : done.start = pc
    · -- The message in hand is the only one for this entry.
      have hfor : Compiled.isFor pc c.epoch done = true := by simp [Compiled.isFor, hstart, he]
      have hle : (if c.isCompiling pc = true then 1 else 0) ≤ 1 := by split <;> omega
      rw [List.countP_cons_of_pos hfor] at hcount
      rw [if_pos hstart, hentry, if_neg Bool.false_ne_true]
      omega
    · have hfor : ¬ Compiled.isFor pc c.epoch done = true := by simp [Compiled.isFor, hstart]
      rw [List.countP_cons_of_neg hfor] at hcount
      rw [if_neg hstart, hcount]

/-! ### Taking in a message -/

/-- The result is of the current epoch and its entry is marked, so that it is installed. -/
def Expects (c : Control) (done : Compiled) : Prop :=
  done.epoch = c.epoch ∧ c.isCompiling done.start = true

theorem accept_of_expects {done : Compiled} (h : c.Expects done) :
    c.accept done = c.install done.start done.result := if_pos h

theorem accept_of_not_expects {done : Compiled} (h : ¬ c.Expects done) : c.accept done = c :=
  if_neg h

/-- A message of the current epoch is expected. -/
theorem Tracks.expects {done : Compiled} (h : c.Tracks (done :: messages))
    (he : done.epoch = c.epoch) : c.Expects done := by
  refine ⟨he, ?_⟩
  by_contra hc
  have hcount := h.count done.start
  rw [List.countP_cons_of_pos (by simp [Compiled.isFor, he]), if_neg hc] at hcount
  omega

theorem Tracks.accept {done : Compiled} (h : c.Tracks (done :: messages)) :
    (c.accept done).Tracks messages := by
  by_cases he : done.epoch = c.epoch
  · rw [accept_of_expects (h.expects he)]
    cases hresult : done.result with
    | ok block => exact h.unmark he rfl
    | error err =>
      have hfail : (c.setEntry done.start .failed).Tracks messages := h.unmark he rfl
      exact hfail.congr (fun _ => rfl) rfl
  · rw [accept_of_not_expects fun hexpects => he hexpects.1]
    refine ⟨fun d hd => h.epoch_le d (List.mem_cons_of_mem _ hd), fun pc => ?_⟩
    rw [← h.count pc, List.countP_cons_of_neg (by simp [Compiled.isFor, he])]

theorem Tracks.acceptAll {received : List Compiled} (h : c.Tracks (received ++ messages)) :
    (received.foldl Control.accept c).Tracks messages := by
  induction received generalizing c with
  | nil => exact h
  | cons done rest ih => exact ih h.accept

/-- A new epoch in which nothing is marked. -/
theorem Tracks.newEpoch (h : c.Tracks messages) {blocks : BlockTable}
    (hblocks : ∀ pc : UInt64, blocks[pc]? ≠ some .compiling) :
    (c.newEpoch blocks).Tracks messages where
  epoch_le done hd := Nat.le_succ_of_le (h.epoch_le done hd)
  count pc := by
    have hmark : (c.newEpoch blocks).isCompiling pc = false := by
      rw [← Bool.not_eq_true, isCompiling_iff]
      exact hblocks pc
    rw [hmark, if_neg Bool.false_ne_true, List.countP_eq_zero]
    intro done hd
    have hle := h.epoch_le done hd
    have hne : done.epoch ≠ c.epoch + 1 := by omega
    simp [Compiled.isFor, Control.newEpoch, hne]

/-! ### The engine and its worker -/

/-- The engine has the worker `w`, counts its messages and keeps track of them. -/
structure Attended (c : Control) (w : Worker) : Prop where
  /-- The engine's worker. -/
  worker : c.worker = some w
  /-- The count of messages. -/
  balanced : w.Balanced
  /-- The marks. -/
  tracks : c.Tracks w.outstanding

theorem Attended.congr (h : c.Attended w) (hb : c'.blocks = c.blocks) (he : c'.epoch = c.epoch)
    (hw : c'.worker = c.worker) : c'.Attended w where
  worker := hw.trans h.worker
  balanced := h.balanced
  tracks := h.tracks.congr (fun pc => by unfold isCompiling; rw [hb]) he

theorem attended_start {settings : Settings} (hjit : settings.jit = true)
    (hbackground : settings.backgroundCompile = true) : (start settings).Attended {} where
  worker := by simp [start, hjit, hbackground]
  balanced := rfl
  tracks := ⟨fun done hd => absurd hd List.not_mem_nil,
    fun pc => by simp [Worker.outstanding, isCompiling, start]⟩

theorem Attended.work (h : c.Attended w) : c.work.Attended w.work where
  worker := by simp only [Control.work, h.worker, Option.map_some]
  balanced := h.balanced.work
  tracks := by
    rw [Worker.outstanding_work]
    exact h.tracks.congr (fun _ => rfl) rfl

theorem worker_install (c : Control) (pc : UInt64) (result : Except CompileError Block) :
    (c.install pc result).worker = c.worker := by
  cases result <;> rfl

theorem worker_acceptAll (received : List Compiled) (c : Control) :
    (received.foldl accept c).worker = c.worker := by
  induction received generalizing c with
  | nil => rfl
  | cons done rest ih =>
    rw [List.foldl_cons, ih]
    unfold accept
    split
    · exact worker_install ..
    · rfl

theorem Attended.drain (h : c.Attended w) : c.drain.Attended w.receive.2 := by
  have hdrain : c.drain = w.finished.foldl accept { c with worker := some w.receive.2 } := by
    simp only [Control.drain, h.worker]
    rfl
  rw [hdrain]
  refine ⟨worker_acceptAll .., h.balanced.receive, Tracks.acceptAll ?_⟩
  have hmessages : w.finished ++ w.receive.2.outstanding = w.outstanding := by
    simp [Worker.outstanding, Worker.receive]
  rw [hmessages]
  exact h.tracks.congr (fun _ => rfl) rfl

/-- **After waiting, nothing is under way.** -/
theorem Attended.await (h : c.Attended w) : c.await.Attended {} := by
  have hawait : c.await = w.outstanding.foldl accept { c with worker := some {} } := by
    simp only [Control.await, h.worker, h.balanced.receiveAll]
  rw [hawait]
  refine ⟨worker_acceptAll .., rfl, Tracks.acceptAll ?_⟩
  have hmessages : w.outstanding ++ (Worker.mk [] [] 0).outstanding = w.outstanding :=
    List.append_nil _
  rw [hmessages]
  exact h.tracks.congr (fun _ => rfl) rfl

theorem Attended.newEpoch (h : c.Attended w) {blocks : BlockTable}
    (hblocks : ∀ pc : UInt64, blocks[pc]? ≠ some .compiling) : (c.newEpoch blocks).Attended w :=
  ⟨h.worker, h.balanced, h.tracks.newEpoch hblocks⟩

theorem Attended.invalidate (h : c.Attended w) (address : UInt64) :
    (c.invalidate address).Attended w := by
  refine h.newEpoch fun pc hb => ?_
  have hs := (getElem?_invalidate c address pc).symm.trans hb
  exact absurd (Option.filter_eq_some_iff.1 hs).2 (by simp [Entry.survives])

theorem Attended.invalidateAll (h : c.Attended w) : c.invalidateAll.Attended w :=
  h.newEpoch fun pc => by simp

/-! ### What a visit hands to the worker -/

/-- The job is made of words that are fetched now. -/
structure Fetches (c : Control) (mem : Memory) (job : CompileJob) : Prop where
  /-- The job is of the current epoch. -/
  epoch : job.epoch = c.epoch
  /-- The words are those in memory. -/
  words : fetchBlock mem c.settings.maxBlockLength.toNat job.start = .ok job.words

/-- Nothing was handed to the worker, or one job whose words were fetched for it. -/
def HandsOver (c : Control) (mem : Memory) (w w' : Worker) : Prop :=
  w' = w ∨ ∃ job, c.Fetches mem job ∧ w' = w.submit job

theorem HandsOver.of_keeps {w' : Worker} {mem : Memory} (hk : c.Keeps c')
    (h : c'.HandsOver mem w w') : c.HandsOver mem w w' := by
  rcases h with rfl | ⟨job, hjob, rfl⟩
  · exact .inl rfl
  · refine .inr ⟨job, ⟨hjob.epoch.trans hk.epoch, ?_⟩, rfl⟩
    rw [← hk.settings]
    exact hjob.words

/-- The control once the entry is marked. -/
def begun (c : Control) (pc : UInt64) : Control :=
  { c with stats.compilations := c.stats.compilations + 1 }.setEntry pc .compiling

theorem compile_of_error {mem : Memory} {pc : UInt64} {fault : MemoryFault}
    (h : fetchBlock mem c.settings.maxBlockLength.toNat pc = .error fault) :
    c.compile mem pc = (c.begun pc).fail pc := by
  unfold Control.compile
  dsimp only
  split
  · rfl
  · next words hwords => cases hwords.symm.trans h

theorem compile_of_ok {mem : Memory} {pc : UInt64} {words : List UInt32}
    (h : fetchBlock mem c.settings.maxBlockLength.toNat pc = .ok words) (hw : c.worker = some w) :
    c.compile mem pc = { c.begun pc with worker := some (w.submit ⟨pc, words, c.epoch⟩) } := by
  unfold Control.compile
  dsimp only
  split
  · next fault hfault => cases hfault.symm.trans h
  · next words' hwords =>
    cases hwords.symm.trans h
    split
    · next w' hw' =>
      cases hw'.symm.trans hw
      rfl
    · next hnone => cases hnone.symm.trans hw

theorem Attended.compile (h : c.Attended w) (mem : Memory) {pc : UInt64}
    (hpc : c.isCompiling pc = false) :
    ∃ w', (c.compile mem pc).Attended w' ∧ c.HandsOver mem w w' := by
  cases hfetch : fetchBlock mem c.settings.maxBlockLength.toNat pc with
  | error fault =>
    refine ⟨w, ?_, .inl rfl⟩
    rw [compile_of_error hfetch]
    -- The mark is replaced before anyone can see it.
    have hfail : (c.setEntry pc .failed).Tracks w.outstanding := h.tracks.setEntry hpc rfl
    refine ⟨h.worker, h.balanced, hfail.congr ?_ rfl⟩
    intro pc'
    simp only [fail, isCompiling_setEntry]
    split
    · rfl
    · next hne =>
      refine (isCompiling_setEntry _ pc pc' .compiling).trans ?_
      rw [if_neg hne]
      rfl
  | ok words =>
    have hfetches : c.Fetches mem ⟨pc, words, c.epoch⟩ := ⟨rfl, hfetch⟩
    refine ⟨w.submit ⟨pc, words, c.epoch⟩, ?_, .inr ⟨_, hfetches, rfl⟩⟩
    rw [compile_of_ok hfetch h.worker]
    refine ⟨rfl, h.balanced.submit _, ?_⟩
    have hmark := h.tracks.mark (CompileJob.finish ⟨pc, words, c.epoch⟩) hpc rfl
    rw [Worker.outstanding_submit]
    exact hmark.congr (fun _ => rfl) rfl

theorem Attended.submitDeferred (h : c.Attended w) (mem : Memory) (pc : UInt64) :
    ∃ w', (c.submitDeferred mem pc).Attended w' ∧ c.HandsOver mem w w' := by
  unfold Control.submitDeferred
  split
  · exact ⟨w, h, .inl rfl⟩
  · next entry _ =>
    have hc : Attended { c with deferred := none } w := h.congr rfl rfl rfl
    have hkeeps : c.Keeps { c with deferred := none } := ⟨rfl, rfl, rfl, rfl, rfl, rfl, rfl⟩
    dsimp only
    split
    · exact ⟨w, h, .inl rfl⟩
    · split
      · next hopen =>
        obtain ⟨w', hw', hhands⟩ := hc.compile mem (isCompiling_of_isOpen hopen)
        exact ⟨w', hw', hhands.of_keeps hkeeps⟩
      · exact ⟨w, hc, .inl rfl⟩

/-- With a worker, a visit that makes an entry hot only defers it. -/
theorem Attended.countVisit (h : c.Attended w) (mem : Memory) {pc : UInt64}
    (hpc : c.isCompiling pc = false) (hits : Nat) (pinned : Bool) :
    (c.countVisit mem pc hits pinned).Attended w := by
  have hc : (c.setEntry pc (.interpreting (min (hits + 1) Entry.maxHits) pinned)).Attended w :=
    ⟨h.worker, h.balanced, h.tracks.setEntry hpc rfl⟩
  unfold Control.countVisit
  dsimp only
  split
  · exact hc
  · split
    · exact hc.congr rfl rfl rfl
    · next hnone => exact absurd (congrArg Option.isSome h.worker) hnone

/-- **A visit receives what is finished and hands over at most one job**, whose words it has just
fetched. -/
theorem Attended.visit (h : c.Attended w) (hjit : c.settings.jit = true) (mem : Memory)
    (pc : UInt64) :
    ∃ w', (c.visit mem pc).2.Attended w' ∧ c.HandsOver mem w.receive.2 w' := by
  obtain ⟨w', hw', hhands⟩ := h.drain.submitDeferred mem pc
  refine ⟨w', ?_, hhands.of_keeps (keeps_drain c)⟩
  unfold Control.visit
  rw [if_pos hjit]
  dsimp only
  split
  · exact hw'
  · exact hw'
  · next hits pinned hentry =>
    exact hw'.countVisit mem (isCompiling_of_interpreting hentry) hits pinned

/-! ### What becomes of an entry at a visit -/

theorem drain_eq (hw : c.worker = some w) :
    c.drain = w.finished.foldl accept { c with worker := some w.receive.2 } := by
  unfold drain
  split
  · next hnone => cases hnone.symm.trans hw
  · next w' hw' =>
    cases hw'.symm.trans hw
    rfl

theorem drain_of_idle (hw : c.worker = some w) (hfinished : w.finished = []) : c.drain = c := by
  obtain ⟨jobs, finished, inFlight⟩ := w
  cases hfinished
  rw [drain_eq hw]
  show { c with worker := some ⟨jobs, [], inFlight⟩ } = c
  rw [← hw]

/-- The control once its deferred entry was handed to the worker. -/
def handedOver (c : Control) (w : Worker) (start : UInt64) (words : List UInt32) : Control :=
  { ({ c with deferred := none }).begun start with
    worker := some (w.submit ⟨start, words, c.epoch⟩) }

/-- The control once the first visit of an entry has made it hot. -/
def deferring (c : Control) (pc : UInt64) : Control :=
  { c.setEntry pc (.interpreting 1 false) with deferred := some pc }

/-- An entry that is deferred and still open is handed over at another one. -/
theorem submitDeferred_of_isOpen {mem : Memory} {pc start : UInt64} {words : List UInt32}
    (hw : c.worker = some w) (hdeferred : c.deferred = some start) (hne : start ≠ pc)
    (hopen : c.blocks[start]?.any Entry.isOpen = true)
    (hfetch : fetchBlock mem c.settings.maxBlockLength.toNat start = .ok words) :
    c.submitDeferred mem pc = c.handedOver w start words := by
  rw [submitDeferred, hdeferred]
  dsimp only
  rw [if_neg hne, if_pos hopen]
  exact compile_of_ok (c := { c with deferred := none }) hfetch hw

theorem getElem?_deferring (c : Control) (pc a : UInt64) :
    (c.deferring pc).blocks[a]? =
      if pc = a then some (.interpreting 1 false) else c.blocks[a]? :=
  getElem?_setEntry ..

theorem getElem?_handedOver (c : Control) (w : Worker) (start : UInt64) (words : List UInt32)
    (a : UInt64) :
    (c.handedOver w start words).blocks[a]? =
      if start = a then some .compiling else c.blocks[a]? :=
  getElem?_setEntry ..

/-- If one visit is enough, the first visit of an entry defers it. -/
theorem visit_of_absent {mem : Memory} {pc : UInt64} (hjit : c.settings.jit = true)
    (hready : c.drain.submitDeferred mem pc = c') (hpc : c'.blocks[pc]? = none)
    (hhot : c'.settings.hotThreshold.toNat ≤ 1) (hworker : c'.worker.isSome) :
    c.visit mem pc = (none, c'.deferring pc) := by
  have hcount : c'.countVisit mem pc 0 false = c'.deferring pc := by
    have hreached : ¬ 1 < c'.settings.hotThreshold.toNat := Nat.not_lt.2 hhot
    simp [countVisit, deferring, setEntry, Entry.maxHits, hreached, hworker]
  rw [visit, if_pos hjit]
  dsimp only
  rw [hready, hpc]
  refine Prod.ext ?_ hcount
  show (c'.countVisit mem pc 0 false).blocks[pc]?.bind Entry.block? = none
  rw [hcount, getElem?_deferring, if_pos rfl]
  rfl

/-- A visit of a compiled entry finds its block. -/
theorem visit_of_compiled {mem : Memory} {pc : UInt64} {block : Block}
    (hjit : c.settings.jit = true) (hready : c.drain.submitDeferred mem pc = c')
    (hpc : c'.blocks[pc]? = some (.compiled block)) : c.visit mem pc = (some block, c') := by
  rw [visit, if_pos hjit]
  dsimp only
  rw [hready, hpc]
  rfl

end Control

end AlphaMachine
