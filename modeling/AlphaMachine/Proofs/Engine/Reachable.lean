import AlphaMachine.Proofs.Engine.Pending
import AlphaMachine.Proofs.Engine.Visits
import Mathlib.Data.List.Perm.Basic

/-!
# What holds in every reachable state

The owner of an engine calls it: to take steps, to run, to move the program counter, to invalidate
blocks, to wait for the worker.  Meanwhile the worker finishes its jobs, in any order.  After every
list of such calls the engine is sound (`Engine.calls_uphold`): the machine is well-formed, the
cycle count is the number of instructions that were counted, and every block in the table is one
that the compiler made for its entry.

* `Control.proper_of_compile` : the compiler makes proper blocks of what is fetched;
* `Control.Vouches c awaited` : the table is in order, and so are the results that are still to
  come;
* `Control.visit_induction` : what a visit is made of;
* `Engine.calls_induction` : what events and the worker preserve is preserved by calls.
-/

namespace AlphaMachine

/-! ### What the compiler makes -/

namespace Block

/-- The block is one of at most `limit` instructions from `entry`: each has an operation, and only
the last may end it. -/
structure Proper (b : Block) (entry : UInt64) (limit : Nat) : Prop where
  /-- It stands at its entry. -/
  start : b.start = entry
  /-- It has an instruction. -/
  nonempty : 1 ≤ b.size
  /-- It has not too many. -/
  size_le : b.size ≤ limit
  /-- Every word has an operation. -/
  handled : ∀ word ∈ b.words, ∃ op, Operation.ofInstruction? (.decode word) = some op
  /-- Only the last word may end the block. -/
  unended : ∀ word ∈ b.words.dropLast, endsAt word = false

variable {start : UInt64} {words : List UInt32} {body : Code}

theorem handled_of_lowerWords (h : lowerWords start words = .ok body) {word : UInt32}
    (hword : word ∈ words) : ∃ op, Operation.ofInstruction? (.decode word) = some op := by
  induction words generalizing start body with
  | nil => cases hword
  | cons first rest ih =>
    unfold lowerWords at h
    split at h
    · cases h
    · next code hcode =>
      rcases List.mem_cons.1 hword with rfl | hrest
      · rw [lowerWord?_eq] at hcode
        obtain ⟨op, hop, -⟩ := Option.map_eq_some_iff.1 hcode
        exact ⟨op, hop⟩
      · cases hlower : lowerWords (start + 4) rest with
        | error error =>
          rw [hlower] at h
          cases h
        | ok body => exact ih hlower hrest

theorem exists_lowerWords_of_compile {block : Block} (h : compile start words = .ok block) :
    ∃ body, lowerWords start (upToEnd words) = .ok body := by
  obtain ⟨-, body, -, hbody, -⟩ := exists_body_of_compile h
  exact ⟨body, hbody⟩

end Block

namespace Worker

/-- Finish job number `i`, whether or not there are older ones. -/
def finishJob (w : Worker) (i : Nat) : Worker :=
  { w with
    jobs := w.jobs.eraseIdx i
    finished := w.finished ++ (w.jobs[i]?.map CompileJob.finish).toList }

/-- The results come in another order. -/
theorem outstanding_finishJob (w : Worker) (i : Nat) :
    (w.finishJob i).outstanding.Perm w.outstanding := by
  have hjobs : (w.jobs[i]?.toList ++ w.jobs.eraseIdx i).Perm w.jobs := by
    by_cases hi : i < w.jobs.length
    · rw [List.getElem?_eq_getElem hi]
      exact List.getElem_cons_eraseIdx_perm hi
    · rw [List.getElem?_eq_none (Nat.le_of_not_lt hi),
        List.eraseIdx_of_length_le (Nat.le_of_not_lt hi)]
      exact .refl _
  have hresults := (hjobs.map CompileJob.finish).append_left w.finished
  rw [List.map_append, ← Option.toList_map, ← List.append_assoc] at hresults
  exact hresults

end Worker

namespace Control

theorem length_of_fetchBlock {mem : Memory} {n : Nat} {pc : UInt64} {words : List UInt32}
    (h : fetchBlock mem n pc = .ok words) : words.length ≤ n := by
  induction n generalizing pc words with
  | zero =>
    cases h
    exact Nat.le_refl 0
  | succ n ih =>
    simp only [fetchBlock] at h
    cases hfetch : fetch mem pc with
    | error fault =>
      rw [hfetch] at h
      cases h
    | ok word =>
      rw [hfetch] at h
      cases h
      rw [List.length_cons]
      refine Nat.succ_le_succ ?_
      split
      · exact Nat.zero_le n
      · cases hrest : fetchBlock mem n (pc + 4) with
        | error fault => exact Nat.zero_le n
        | ok rest => exact ih hrest

/-- **The compiler makes proper blocks** of what is fetched. -/
theorem proper_of_compile {mem : Memory} {limit : Nat} {pc : UInt64} {words : List UInt32}
    (hfetch : fetchBlock mem limit pc = .ok words) {block : Block}
    (h : Block.compile pc words = .ok block) : block.Proper pc limit := by
  obtain ⟨hne, hstart, hwords⟩ := Block.of_compile h
  obtain ⟨body, hbody⟩ := Block.exists_lowerWords_of_compile h
  exact {
    start := hstart
    nonempty := by
      rw [Block.size, hwords]
      exact List.length_pos_iff.2 (Block.upToEnd_ne_nil hne)
    size_le := by
      rw [Block.size, hwords, upToEnd_of_fetchBlock hfetch]
      exact length_of_fetchBlock hfetch
    handled := by
      rw [hwords]
      exact fun word => Block.handled_of_lowerWords hbody
    unended := by
      rw [hwords]
      exact fun word => Block.endsAt_of_mem_dropLast }

/-! ### The control -/

/-- What the compiler has answered, or will answer, is in order: it makes proper blocks, and it
fails at most as often as it is called, with the results counted in that are still to come. -/
structure Vouches (c : Control) (awaited : List Compiled) : Prop where
  /-- Blocks in the table. -/
  compiled : ∀ {a : UInt64} {block : Block}, c.blocks[a]? = some (.compiled block) →
    block.Proper a c.settings.maxBlockLength.toNat
  /-- Results that are still to come. -/
  results : ∀ done ∈ awaited, ∀ block, done.result = .ok block →
    block.Proper done.start c.settings.maxBlockLength.toNat
  /-- Failures are compilations, and so are results that are still to come. -/
  failures : c.stats.compileFailures + awaited.length ≤ c.stats.compilations

variable {c c' : Control} {l l' : List Compiled}

theorem Vouches.congr (h : c.Vouches l) (hblocks : c'.blocks = c.blocks)
    (hsettings : c'.settings = c.settings)
    (hfailures : c'.stats.compileFailures = c.stats.compileFailures)
    (hcompilations : c'.stats.compilations = c.stats.compilations) : c'.Vouches l where
  compiled hb := hsettings ▸ h.compiled (hblocks ▸ hb)
  results := hsettings ▸ h.results
  failures := by
    rw [hfailures, hcompilations]
    exact h.failures

/-- The order of results does not matter. -/
theorem Vouches.perm (h : c.Vouches l) (hperm : l'.Perm l) : c.Vouches l' where
  compiled := h.compiled
  results done hdone := h.results done (hperm.mem_iff.1 hdone)
  failures := by
    rw [hperm.length_eq]
    exact h.failures

theorem Vouches.setEntry (h : c.Vouches l) (pc : UInt64) {entry : Entry}
    (hentry : ∀ block, entry = .compiled block →
      block.Proper pc c.settings.maxBlockLength.toNat) : (c.setEntry pc entry).Vouches l where
  compiled {a block} hb := by
    rw [getElem?_setEntry] at hb
    split at hb
    · next heq =>
      subst heq
      exact hentry block (Option.some.inj hb)
    · exact h.compiled hb
  results := h.results
  failures := h.failures

/-- A result that was to come is taken in. -/
theorem Vouches.install {done : Compiled} (h : c.Vouches (done :: l)) :
    (c.install done.start done.result).Vouches l := by
  have hfailures := h.failures
  rw [List.length_cons] at hfailures
  have hdone := h.results done List.mem_cons_self
  have hrest : ∀ d ∈ l, ∀ block, d.result = .ok block →
      block.Proper d.start c.settings.maxBlockLength.toNat :=
    fun d hd => h.results d (List.mem_cons_of_mem _ hd)
  cases hresult : done.result with
  | ok block =>
    have hc : c.Vouches l := ⟨h.compiled, hrest, by omega⟩
    refine hc.setEntry done.start fun block' hb => ?_
    cases hb
    exact hdone block hresult
  | error error =>
    have hc : Vouches { c with stats.compileFailures := c.stats.compileFailures + 1 } l :=
      ⟨h.compiled, hrest, by dsimp only; omega⟩
    exact hc.setEntry done.start nofun

theorem Vouches.accept {done : Compiled} (h : c.Vouches (done :: l)) :
    (c.accept done).Vouches l := by
  unfold Control.accept
  split
  · exact h.install
  · -- A result that is dropped no longer counts.
    refine ⟨h.compiled, fun d hd => h.results d (List.mem_cons_of_mem _ hd), ?_⟩
    exact Nat.le_trans (Nat.add_le_add_left (Nat.le_succ _) _) h.failures

theorem Vouches.acceptAll {received : List Compiled} (h : c.Vouches (received ++ l)) :
    (received.foldl Control.accept c).Vouches l := by
  induction received generalizing c with
  | nil => exact h
  | cons done rest ih => exact ih h.accept

/-- The results that are still to come from the worker, if there is one. -/
def outstanding (c : Control) : List Compiled := c.worker.elim [] Worker.outstanding

/-- The table and the worker are in order. -/
def Sound (c : Control) : Prop := c.Vouches c.outstanding

theorem Sound.congr (h : c.Sound) (hblocks : c'.blocks = c.blocks)
    (hworker : c'.worker = c.worker) (hsettings : c'.settings = c.settings)
    (hfailures : c'.stats.compileFailures = c.stats.compileFailures)
    (hcompilations : c'.stats.compilations = c.stats.compilations) : c'.Sound := by
  unfold Sound outstanding
  rw [hworker]
  exact Vouches.congr h hblocks hsettings hfailures hcompilations

theorem sound_start (settings : Settings) : (start settings).Sound where
  compiled hb := by simp [start] at hb
  results done hdone := by
    have hnone : (start settings).outstanding = [] := by
      unfold outstanding start
      dsimp only
      split <;> rfl
    rw [hnone] at hdone
    cases hdone
  failures := by
    unfold outstanding start
    dsimp only
    split <;> exact Nat.le_refl 0

/-! ### The worker -/

/-- The results that were received are taken in; the worker goes on with the others. -/
theorem sound_acceptAll {received : List Compiled} {w : Worker}
    (h : c.Vouches (received ++ w.outstanding)) :
    Sound (received.foldl Control.accept { c with worker := some w }) := by
  have hc : Vouches { c with worker := some w } (received ++ w.outstanding) :=
    h.congr rfl rfl rfl rfl
  have hworker := worker_acceptAll received { c with worker := some w }
  unfold Sound outstanding
  rw [hworker]
  exact hc.acceptAll

theorem Sound.drain (h : c.Sound) : c.drain.Sound := by
  unfold Control.drain
  split
  · exact h
  · next w hw =>
    have hc : c.Vouches w.outstanding := by
      rw [Sound, outstanding, hw] at h
      exact h
    exact sound_acceptAll hc

theorem Sound.await (h : c.Sound) : c.await.Sound := by
  unfold Control.await
  split
  · exact h
  · next w hw =>
    have hc : c.Vouches w.outstanding := by
      rw [Sound, outstanding, hw] at h
      exact h
    -- What is not received stays with the worker, which has no jobs any more.
    have hsplit : w.receiveAll.1 ++ w.receiveAll.2.outstanding = w.outstanding := by
      simp only [Worker.receiveAll, Worker.workAll, Worker.outstanding, List.map_nil,
        List.append_nil, List.take_append_drop]
    exact sound_acceptAll (hsplit ▸ hc)

/-! ### Visits -/

/-- **What a visit is made of**: it takes in results, compiles entries, counts, and defers. -/
theorem visit_induction {I : Control → Prop} {mem : Memory} (h : I c)
    (hdrain : ∀ c, I c → I c.drain) (hcompile : ∀ c pc, I c → I (c.compile mem pc))
    (hcount : ∀ c pc hits pinned, I c → I (c.setEntry pc (.interpreting hits pinned)))
    (hdefer : ∀ c deferred, I c → I { c with deferred := deferred }) (pc : UInt64) :
    I (c.visit mem pc).2 := by
  have hsubmit : ∀ c, I c → I (c.submitDeferred mem pc) := by
    intro c hc
    unfold submitDeferred
    split
    · exact hc
    · dsimp only
      split
      · exact hc
      · split
        · exact hcompile _ _ (hdefer c none hc)
        · exact hdefer c none hc
  have hready : I (c.drain.submitDeferred mem pc) := hsubmit _ (hdrain c h)
  unfold visit
  split
  · dsimp only
    split
    · exact hready
    · exact hready
    · next hits pinned _ =>
      have hcounted := hcount _ pc (min (hits + 1) Entry.maxHits) pinned hready
      unfold countVisit
      dsimp only
      split
      · exact hcounted
      · split
        · exact hdefer _ (some pc) hcounted
        · exact hcompile _ pc hcounted
  · exact h

/-- A compilation that is begun has a result to come. -/
theorem Vouches.begun (h : c.Vouches l) (done : Compiled)
    (hdone : ∀ block, done.result = .ok block →
      block.Proper done.start c.settings.maxBlockLength.toNat) :
    (c.begun done.start).Vouches (done :: l) := by
  have hc : Vouches { c with stats.compilations := c.stats.compilations + 1 } (done :: l) := by
    refine ⟨h.compiled, ?_, ?_⟩
    · intro d hd
      rcases List.mem_cons.1 hd with rfl | hd
      · exact hdone
      · exact h.results d hd
    · have hfailures := h.failures
      dsimp only
      rw [List.length_cons]
      omega
  exact hc.setEntry done.start nofun

theorem Sound.compile (h : c.Sound) (mem : Memory) (pc : UInt64) : (c.compile mem pc).Sound := by
  cases hfetch : fetchBlock mem c.settings.maxBlockLength.toNat pc with
  | error fault =>
    -- It fails at once, like a result that is an error.
    have hfailed := Vouches.begun h ⟨pc, c.epoch, .error (.emptyBlock pc)⟩ nofun
    rw [compile_of_error hfetch]
    exact hfailed.install
  | ok words =>
    have hproper : ∀ block, Block.compile pc words = .ok block →
        block.Proper pc c.settings.maxBlockLength.toNat := fun block => proper_of_compile hfetch
    have hbegun := Vouches.begun h ⟨pc, c.epoch, Block.compile pc words⟩ hproper
    cases hworker : c.worker with
    | none =>
      rw [compile_of_ok_alone hworker hfetch]
      have hinstalled := hbegun.install
      have hnone : c.outstanding = [] := by rw [outstanding, hworker]; rfl
      have hworker' : ((c.begun pc).install pc (Block.compile pc words)).worker = none :=
        (worker_install ..).trans hworker
      rw [Sound, outstanding, hworker']
      rw [hnone] at hinstalled
      exact hinstalled
    | some w =>
      rw [compile_of_ok hfetch hworker]
      have hsome : c.outstanding = w.outstanding := by rw [outstanding, hworker]; rfl
      rw [hsome] at hbegun
      show Vouches _ (w.submit ⟨pc, words, c.epoch⟩).outstanding
      rw [Worker.outstanding_submit]
      refine (hbegun.perm ?_).congr rfl rfl rfl rfl
      exact List.perm_append_singleton _ _

theorem Sound.visit (h : c.Sound) (mem : Memory) (pc : UInt64) : (c.visit mem pc).2.Sound := by
  refine visit_induction h (fun _ hc => hc.drain) (fun _ pc hc => hc.compile mem pc) ?_ ?_ pc
  · intro c pc hits pinned hc
    exact Vouches.setEntry hc pc nofun
  · intro c deferred hc
    exact hc.congr rfl rfl rfl rfl rfl

/-! ### Invalidation -/

theorem Sound.newEpoch (h : c.Sound) {blocks : BlockTable}
    (hblocks : ∀ {a : UInt64} {block : Block}, blocks[a]? = some (.compiled block) →
      c.blocks[a]? = some (.compiled block)) : (c.newEpoch blocks).Sound where
  compiled hb := h.compiled (hblocks hb)
  results := h.results
  failures := h.failures

theorem Sound.invalidate (h : c.Sound) (address : UInt64) : (c.invalidate address).Sound := by
  refine h.newEpoch fun {a block} hb => ?_
  have hfilter := (getElem?_invalidate c address a).symm.trans hb
  exact (Option.filter_eq_some_iff.1 hfilter).1

theorem Sound.invalidateAll (h : c.Sound) : c.invalidateAll.Sound := by
  refine h.newEpoch fun {a block} hb => ?_
  simp at hb

/-! ### Out of order -/

/-- The worker finishes its job number `i`, whether or not there are older ones. -/
def finishJob (c : Control) (i : Nat) : Control :=
  { c with worker := c.worker.map (·.finishJob i) }

theorem work_eq (c : Control) : c.work = c.finishJob 0 := by
  unfold work Control.finishJob
  congr 2
  funext w
  obtain ⟨jobs, finished, inFlight⟩ := w
  cases jobs with
  | nil => simp [Worker.work, Worker.finishJob]
  | cons job rest => rfl

theorem Sound.finishJob (h : c.Sound) (i : Nat) : (c.finishJob i).Sound := by
  unfold Control.finishJob
  cases hworker : c.worker with
  | none => exact h.congr rfl hworker.symm rfl rfl rfl
  | some w =>
    rw [Sound, outstanding, hworker] at h
    show Vouches _ (w.finishJob i).outstanding
    exact (h.perm (w.outstanding_finishJob i)).congr rfl rfl rfl rfl

end Control

/-- Instructions that were executed, interpreted or as part of a block. -/
def Stats.executed (s : Stats) : Nat := s.interpreted + s.compiledInstructions

namespace Engine

/-! ### The engine -/

/-- What holds of an engine between calls. -/
structure Sound (e : Engine) : Prop where
  /-- The machine is well-formed. -/
  machine : e.machine.WellFormed
  /-- Every instruction is counted once by the machine and once by the control. -/
  cycles : e.machine.cpu.cycles = UInt64.ofNat e.control.stats.executed
  /-- The table and the worker are in order. -/
  control : e.control.Sound

variable {e : Engine} {c : Control} {m : Machine}

theorem sound_start (mem : Memory) (entry : UInt64) (settings : Settings) :
    (start mem entry settings).Sound where
  machine := wellFormed_startingAt entry mem
  cycles := rfl
  control := Control.sound_start settings

theorem Enters.sound {found : Option Block} (h : e.Enters found c) (he : e.control.Sound) :
    c.Sound :=
  h.induction he (fun _ hc => hc.congr rfl rfl rfl rfl rfl) fun _ hc => hc.visit _ _

/-- A visit executes nothing. -/
theorem Enters.executed {found : Option Block} (h : e.Enters found c) :
    c.stats.executed = e.control.stats.executed := by
  refine h.induction (I := fun c => c.stats.executed = e.control.stats.executed) rfl
    (fun _ hc => hc) ?_
  intro c hc
  have hkeeps := Control.keeps_visit c e.machine.mem e.machine.cpu.pc
  rw [Stats.executed, hkeeps.interpreted, hkeeps.compiledInstructions]
  exact hc

/-! ### Steps -/

theorem Sound.raise (h : Sound ⟨m, c⟩) (trap : Trap) : (raise ⟨m, c⟩ trap).1.Sound := by
  have hcontrol : Control.Sound ({ c with stats.traps := c.stats.traps + 1 }.enterBlock) :=
    h.control.congr rfl rfl rfl rfl rfl
  unfold Engine.raise
  dsimp only
  split
  · exact ⟨h.machine.congr rfl rfl rfl rfl rfl, h.cycles, hcontrol⟩
  · exact ⟨h.machine.congr rfl rfl rfl rfl rfl, h.cycles, hcontrol⟩

theorem sound_retire (h : c.Sound) (flush endsBlock : Bool) : (retire c flush endsBlock).Sound := by
  have hcounted : Control.Sound { c with
      stats.interpreted := c.stats.interpreted + 1
      runLength := c.runLength + 1 } := h.congr rfl rfl rfl rfl rfl
  unfold retire
  dsimp only
  cases flush with
  | true =>
    rw [if_pos rfl]
    split
    · exact hcounted.invalidateAll.congr rfl rfl rfl rfl rfl
    · exact hcounted.invalidateAll
  | false =>
    rw [if_neg Bool.false_ne_true]
    split
    · exact hcounted.congr rfl rfl rfl rfl rfl
    · exact hcounted

theorem executed_retire (c : Control) (flush endsBlock : Bool) :
    (retire c flush endsBlock).stats.executed = c.stats.executed + 1 := by
  have hcount : c.stats.interpreted + 1 + c.stats.compiledInstructions = c.stats.executed + 1 := by
    rw [Stats.executed]
    omega
  unfold retire
  dsimp only
  refine Eq.trans ?_ hcount
  cases flush with
  | true =>
    rw [if_pos rfl]
    split <;> rfl
  | false =>
    rw [if_neg Bool.false_ne_true]
    split <;> rfl

theorem executed_countRun (c : Control) (retired : UInt64) :
    (countRun c retired).stats.executed = c.stats.executed + retired.toNat :=
  (Nat.add_assoc ..).symm

/-- The machine and the control count on. -/
theorem cycles_add {cycles : UInt64} {n : Nat} (h : cycles = UInt64.ofNat n) (retired : UInt64) :
    cycles + retired = UInt64.ofNat (n + retired.toNat) := by
  rw [h, UInt64.ofNat_add, UInt64.ofNat_toNat]

/-- A visit keeps the engine sound. -/
theorem Enters.sound_visited {found : Option Block} (henters : e.Enters found c) (h : e.Sound) :
    Sound ⟨e.machine, c⟩ :=
  ⟨h.machine, henters.executed ▸ h.cycles, henters.sound h.control⟩

/-- The instructions of a block are counted by the machine and by the control. -/
theorem Sound.countRun (h : Sound ⟨m, c⟩) {m' : Machine} (hmachine : m'.WellFormed)
    (hkeeps : m.Keeps m') (pc retired : UInt64) :
    Sound ⟨advance m' pc retired, Engine.countRun c retired⟩ where
  machine := hmachine.congr rfl rfl rfl rfl rfl
  cycles := by
    change m'.cpu.cycles + retired = _
    rw [executed_countRun, hkeeps.cycles]
    exact cycles_add h.cycles retired
  control := h.control.congr rfl rfl rfl rfl rfl

/-- **A step keeps the engine sound**, whichever way it ends. -/
theorem Stepped.sound {r : Engine × Option Exit} (hstepped : Stepped e r) (h : e.Sound) :
    r.1.Sound := by
  cases hstepped with
  | halted => exact h
  | @fault c henters fault hfetch => exact (henters.sound_visited h).raise _
  | @trap c henters word hfetch m' trap hexecute =>
    have hvisited := henters.sound_visited h
    have hmachine := execute_wellFormed h.machine word e.machine.cpu.pc
    have hkeeps := execute_keeps word e.machine.cpu.pc e.machine
    rw [hexecute] at hmachine hkeeps
    have hbegun : Sound ⟨m', c⟩ :=
      ⟨hmachine, hkeeps.1.cycles.trans hvisited.cycles, hvisited.control⟩
    exact hbegun.raise trap
  | @done c henters word hfetch m' flow hexecute =>
    have hvisited := henters.sound_visited h
    have hmachine := execute_wellFormed h.machine word e.machine.cpu.pc
    have hkeeps := execute_keeps word e.machine.cpu.pc e.machine
    rw [hexecute] at hmachine hkeeps
    refine ⟨hmachine.congr rfl rfl rfl rfl rfl, ?_, sound_retire hvisited.control _ _⟩
    calc m'.cpu.cycles + 1
        = e.machine.cpu.cycles + 1 := by rw [hkeeps.cycles]
      _ = UInt64.ofNat (c.stats.executed + 1) := cycles_add hvisited.cycles 1
      _ = UInt64.ofNat _ := by rw [← executed_retire]; rfl
  | @blockTrap c block henters m' trap hrun =>
    have hmachine := Block.wellFormed_runWords h.machine block.start block.start block.words
    rw [hrun] at hmachine
    exact ((henters.sound_visited h).countRun hmachine (Block.keeps_runWords hrun) ..).raise trap
  | @blockDone c block henters m' exit hrun =>
    have hmachine := Block.wellFormed_runWords h.machine block.start block.start block.words
    rw [hrun] at hmachine
    have hran := (henters.sound_visited h).countRun hmachine (Block.keeps_runWords hrun) exit.1
      block.size.toUInt64
    -- Discarding code changes neither count.
    cases exit.2 with
    | true =>
      exact ⟨hran.machine, hran.cycles, hran.control.invalidateAll.congr rfl rfl rfl rfl rfl⟩
    | false => exact ⟨hran.machine, hran.cycles, hran.control.congr rfl rfl rfl rfl rfl⟩

/-! ### Calls -/

/-- The worker finishes its job number `i`. -/
def finishJob (e : Engine) (i : Nat) : Engine := { e with control := e.control.finishJob i }

/-- A run of at most `n` steps; before each, the worker finishes the jobs that `schedule` says. -/
def runAmid (schedule : Nat → List Nat) : Nat → Engine → Engine × Option Exit
  | 0, e => (e, none)
  | n + 1, e =>
    match ((schedule n).foldl finishJob e).step with
    | (e, some exit) => (e, some exit)
    | (e, none) => runAmid schedule n e

/-- The most steps of a run. -/
def limit (e : Engine) (maxSteps : Option UInt64) : Nat :=
  ((maxSteps <|> e.control.settings.maxSteps).map UInt64.toNat).getD unlimited

/-- What can happen to an engine that has one owner and one worker. -/
inductive Call where
  /-- A single event. -/
  | event (event : Event)
  /-- The owner lets the engine run; meanwhile the worker finishes jobs. -/
  | run (maxSteps : Option UInt64) (schedule : Nat → List Nat)
  /-- The worker finishes a job, not necessarily the oldest. -/
  | finish (i : Nat)

/-- The engine after a call. -/
def call (e : Engine) : Call → Engine
  | .event event => e.apply event
  | .run maxSteps schedule => (e.runAmid schedule (e.limit maxSteps)).1
  | .finish i => e.finishJob i

/-- The engine after a list of calls. -/
def calls (e : Engine) (l : List Call) : Engine := l.foldl call e

/-- A run in which the worker finishes nothing. -/
theorem runAmid_idle (n : Nat) (e : Engine) : e.runAmid (fun _ => []) n = e.runFor n := by
  induction n generalizing e with
  | zero => rfl
  | succ n ih =>
    rw [runAmid, runFor, List.foldl_nil]
    rcases e.step with ⟨e', _ | exit⟩
    · exact ih e'
    · rfl

theorem call_run_idle (e : Engine) (maxSteps : Option UInt64) :
    e.call (.run maxSteps fun _ => []) = (e.run maxSteps).1 := by
  simp only [call, runAmid_idle, run, limit]

/-- **What events and the worker preserve is preserved by calls**, runs included. -/
theorem calls_induction {I : Engine → Prop} (h : I e)
    (happly : ∀ e event, I e → I (e.apply event)) (hfinish : ∀ e i, I e → I (e.finishJob i))
    (l : List Call) : I (e.calls l) := by
  have hjobs (jobs : List Nat) (e : Engine) (he : I e) : I (jobs.foldl finishJob e) := by
    induction jobs generalizing e with
    | nil => exact he
    | cons i rest ih => exact ih _ (hfinish e i he)
  have hrun (schedule : Nat → List Nat) (n : Nat) (e : Engine) (he : I e) :
      I (e.runAmid schedule n).1 := by
    induction n generalizing e with
    | zero => exact he
    | succ n ih =>
      have hstep := happly _ .step (hjobs (schedule n) e he)
      rw [runAmid]
      rcases hnext : ((schedule n).foldl finishJob e).step with ⟨e', _ | exit⟩ <;>
        rw [apply, hnext] at hstep
      · exact ih e' hstep
      · exact hstep
  induction l generalizing e with
  | nil => exact h
  | cons call rest ih =>
    refine ih ?_
    cases call with
    | event event => exact happly e event h
    | run maxSteps schedule => exact hrun schedule _ e h
    | finish i => exact hfinish e i h

/-! ### Reachable states -/

theorem Sound.finishJob (h : e.Sound) (i : Nat) : (e.finishJob i).Sound :=
  ⟨h.machine, h.cycles, h.control.finishJob i⟩

theorem Sound.apply (h : e.Sound) (event : Event) : (e.apply event).Sound := by
  cases event with
  | step => exact e.stepped.sound h
  | setPc pc =>
    exact ⟨h.machine.congr rfl rfl rfl rfl rfl, h.cycles, h.control.congr rfl rfl rfl rfl rfl⟩
  | setMemory mem => exact ⟨h.machine.congr rfl rfl rfl rfl rfl, h.cycles, h.control⟩
  | invalidate address => exact ⟨h.machine, h.cycles, h.control.invalidate address⟩
  | invalidateAll => exact ⟨h.machine, h.cycles, h.control.invalidateAll⟩
  | await =>
    have hkeeps := Control.keeps_await e.control
    refine ⟨h.machine, ?_, h.control.await⟩
    show e.machine.cpu.cycles = UInt64.ofNat e.control.await.stats.executed
    rw [Stats.executed, hkeeps.interpreted, hkeeps.compiledInstructions]
    exact h.cycles
  | work =>
    -- The oldest job is the first one.
    show Sound { e with control := e.control.work }
    rw [Control.work_eq]
    exact h.finishJob 0

theorem settings_apply (e : Engine) (event : Event) :
    (e.apply event).control.settings = e.control.settings := by
  cases event with
  | step =>
    rw [apply, control_step]
    exact Control.settings_after ..
  | await => exact (Control.keeps_await _).settings
  | _ => rfl

/-- **What holds in every reachable state.**  Whatever the owner calls and in whatever order the
worker finishes, the slots of the two registers 31 are zero, no trap is pending, a reservation is of
a whole granule, the cycle count is the number of executed instructions modulo 2^64, compilations
do not fail more often than they are begun, and every compiled entry holds a proper block.  Only
while compiled code runs there may be a trap in the pending slot: then the run ends by taking it
out. -/
theorem calls_uphold (mem : Memory) (entry : UInt64) (settings : Settings) (l : List Call) :
    let e := (start mem entry settings).calls l
    e.machine.cpu.int.get Reg.zero = 0 ∧ e.machine.cpu.fp.get Reg.zero = 0 ∧
      e.machine.cpu.pendingTrap = 0 ∧ e.machine.cpu.pendingTrapAddr = 0 ∧
      16 ∣ e.machine.cpu.lockAddr.toNat ∧
      e.machine.cpu.cycles.toNat =
        (e.control.stats.interpreted + e.control.stats.compiledInstructions) % 2 ^ 64 ∧
      e.control.stats.compileFailures ≤ e.control.stats.compilations ∧
      (∀ (a : UInt64) (block : Block), e.control.blocks[a]? = some (.compiled block) →
        block.Proper a settings.maxBlockLength.toNat) ∧
      ∀ block : Block, block.run e.machine = block.collect (block.leave e.machine) := by
  intro e
  have hsound : e.Sound := calls_induction (sound_start mem entry settings)
    (fun _ event h => h.apply event) (fun _ i h => h.finishJob i) l
  have hsettings : e.control.settings = settings :=
    calls_induction (I := fun e => e.control.settings = settings) rfl
      (fun e event h => (settings_apply e event).trans h) (fun _ _ h => h) l
  have hfailures := hsound.control.failures
  refine ⟨hsound.machine.zeroInt, hsound.machine.zeroFp, hsound.machine.pendingTrap,
    hsound.machine.pendingTrapAddr, hsound.machine.lockAddr, ?_, by omega, ?_,
    Block.run_eq_collect hsound.machine⟩
  · rw [hsound.cycles, UInt64.toNat_ofNat']
    rfl
  · intro a block hblock
    rw [← hsettings]
    exact hsound.control.compiled hblock

end Engine

end AlphaMachine
