import AlphaMachine.Proofs.Engine.Events
import AlphaMachine.Proofs.Engine.Outstanding
import AlphaMachine.Proofs.Engine.Runs
import Mathlib.Data.List.Induction

/-!
# The engine and its worker as a message-passing system

The control takes part in few kinds of action (`Control.Action`): a visit of a block entry, the
receipt of results, a job done by the worker, an invalidation, and notes that do not concern the
worker.  Whatever happens to an engine is a list of such actions (`Engine.control_turns`), in which
each invalidation stands where it happened, also one that an instruction asked for.

Every list of actions keeps the engine and its worker in step (`Control.exists_attended_after`):
messages are counted, marks and messages of the current epoch agree, and every message comes from a
visit in the list that fetched its words.  A message is installed only in the epoch of its words,
and epochs count invalidations (`Control.epoch_after`), so none has happened in between
(`Control.Submitted.of_epoch_eq`).

`Engine.background_protocol` puts this together for every history of an engine with a worker.
-/

namespace AlphaMachine

/-- What came of compiling the entry, if that is over: the block, or `none` if the entry is
pinned. -/
def Entry.outcome? : Entry → Option (Option Block)
  | .compiled block => some (some block)
  | .interpreting _ true => some none
  | _ => none

namespace Control

/-! ### Actions -/

/-- What is done to the control by the engine, its owner and the worker. -/
inductive Action where
  /-- A block entry is visited. -/
  | visit (mem : Memory) (pc : UInt64)
  /-- What is finished is taken in. -/
  | drain
  /-- The owner waits for the worker. -/
  | await
  /-- The worker does a job. -/
  | work
  /-- An address is invalidated. -/
  | invalidate (address : UInt64)
  /-- Everything is invalidated. -/
  | invalidateAll
  /-- The counts and the position in the block change, which does not concern the worker. -/
  | note (stats : Stats) (atBlockEntry : Bool) (runLength : Nat)

/-- Invalidations. -/
def Action.isInvalidation : Action → Bool
  | .invalidate _ | .invalidateAll => true
  | _ => false

/-- The control after an action. -/
def perform (c : Control) : Action → Control
  | .visit mem pc => (c.visit mem pc).2
  | .drain => c.drain
  | .await => c.await
  | .work => c.work
  | .invalidate address => c.invalidate address
  | .invalidateAll => c.invalidateAll
  | .note stats atBlockEntry runLength => { c with stats, atBlockEntry, runLength }

/-- The control after a list of actions. -/
def after (c : Control) (actions : List Action) : Control := actions.foldl perform c

variable {c : Control} {w : Worker} {settings : Settings}

theorem after_append (c : Control) (actions actions' : List Action) :
    c.after (actions ++ actions') = (c.after actions).after actions' := List.foldl_append

theorem after_concat (c : Control) (actions : List Action) (action : Action) :
    c.after (actions ++ [action]) = (c.after actions).perform action := after_append c actions _

theorem settings_perform (c : Control) (action : Action) :
    (c.perform action).settings = c.settings := by
  cases action with
  | visit mem pc => exact (keeps_visit c mem pc).settings
  | drain => exact (keeps_drain c).settings
  | await => exact (keeps_await c).settings
  | _ => rfl

theorem settings_after (c : Control) (actions : List Action) :
    (c.after actions).settings = c.settings := by
  induction actions generalizing c with
  | nil => rfl
  | cons action rest ih => exact (ih _).trans (settings_perform c action)

theorem epoch_perform (c : Control) (action : Action) :
    (c.perform action).epoch = c.epoch + if action.isInvalidation then 1 else 0 := by
  cases action with
  | visit mem pc => exact (keeps_visit c mem pc).epoch
  | drain => exact (keeps_drain c).epoch
  | await => exact (keeps_await c).epoch
  | _ => rfl

/-- The epoch counts the invalidations. -/
theorem epoch_after (c : Control) (actions : List Action) :
    (c.after actions).epoch = c.epoch + actions.countP Action.isInvalidation := by
  induction actions generalizing c with
  | nil => rfl
  | cons action rest ih =>
    have hrest : (c.after (action :: rest)).epoch = _ := ih (c.perform action)
    rw [hrest, epoch_perform, List.countP_cons]
    omega

/-! ### Where messages come from -/

/-- The visit hands the job to the worker, with the words that it fetched for it. -/
structure Submits (c : Control) (mem : Memory) (pc : UInt64) (job : CompileJob) : Prop where
  /-- The words are in memory at the visit. -/
  fetches : c.Fetches mem job
  /-- The job is the only one that the visit adds. -/
  worker : ∃ w, c.worker = some w ∧ (c.visit mem pc).2.worker = some (w.receive.2.submit job)

/-- One of the actions is the visit that handed over the job. -/
def Submitted (settings : Settings) (actions : List Action) (job : CompileJob) : Prop :=
  ∃ before mem pc rest, actions = before ++ .visit mem pc :: rest ∧
    ((start settings).after before).Submits mem pc job

theorem Submitted.concat {actions : List Action} {job : CompileJob}
    (h : Submitted settings actions job) (action : Action) :
    Submitted settings (actions ++ [action]) job := by
  obtain ⟨before, mem, pc, rest, rfl, hsubmits⟩ := h
  exact ⟨before, mem, pc, rest ++ [action], by simp, hsubmits⟩

/-- **A job whose epoch has lasted has seen no invalidation.** -/
theorem Submitted.of_epoch_eq {actions : List Action} {job : CompileJob}
    (h : Submitted settings actions job) (he : job.epoch = ((start settings).after actions).epoch) :
    ∃ before mem pc rest, actions = before ++ .visit mem pc :: rest ∧
      ((start settings).after before).Submits mem pc job ∧
      ∀ action ∈ rest, action.isInvalidation = false := by
  obtain ⟨before, mem, pc, rest, rfl, hsubmits⟩ := h
  refine ⟨before, mem, pc, rest, rfl, hsubmits, ?_⟩
  have hcount : rest.countP Action.isInvalidation = 0 := by
    have hepoch := epoch_after ((start settings).after before) (.visit mem pc :: rest)
    rw [← after_append, ← he, hsubmits.fetches.epoch, List.countP_cons] at hepoch
    simp only [Action.isInvalidation] at hepoch
    omega
  intro action ha
  simpa using List.countP_eq_zero.1 hcount action ha

/-- An action leaves the worker in step; a message is new only if the action is a visit that hands
it over. -/
theorem Attended.perform (h : c.Attended w) (hjit : c.settings.jit = true) (action : Action) :
    ∃ w', (c.perform action).Attended w' ∧ ∀ done ∈ w'.outstanding, done ∈ w.outstanding ∨
      ∃ mem pc job, action = .visit mem pc ∧ c.Submits mem pc job ∧ done = job.finish := by
  have hreceive : ∀ done ∈ w.receive.2.outstanding, done ∈ w.outstanding :=
    fun done hd => List.mem_append_right _ hd
  cases action with
  | visit mem pc =>
    obtain ⟨w', hw', rfl | ⟨job, hjob, rfl⟩⟩ := h.visit hjit mem pc
    · exact ⟨_, hw', fun done hd => .inl (hreceive done hd)⟩
    · refine ⟨_, hw', fun done hd => ?_⟩
      rw [Worker.outstanding_submit, List.mem_append, List.mem_singleton] at hd
      rcases hd with hd | rfl
      · exact .inl (hreceive done hd)
      · exact .inr ⟨mem, pc, job, rfl, ⟨hjob, w, h.worker, hw'.worker⟩, rfl⟩
  | drain => exact ⟨_, h.drain, fun done hd => .inl (hreceive done hd)⟩
  | await => exact ⟨_, h.await, fun done hd => absurd hd List.not_mem_nil⟩
  | work => exact ⟨_, h.work, fun done hd => .inl (w.outstanding_work ▸ hd)⟩
  | invalidate address => exact ⟨w, h.invalidate address, fun done hd => .inl hd⟩
  | invalidateAll => exact ⟨w, h.invalidateAll, fun done hd => .inl hd⟩
  | note stats atBlockEntry runLength => exact ⟨w, h.congr rfl rfl rfl, fun done hd => .inl hd⟩

/-- **After any actions the worker is in step**, and every message comes from a visit that fetched
its words. -/
theorem exists_attended_after (hjit : settings.jit = true)
    (hbackground : settings.backgroundCompile = true) (actions : List Action) :
    ∃ w, ((start settings).after actions).Attended w ∧
      ∀ done ∈ w.outstanding, ∃ job, Submitted settings actions job ∧ done = job.finish := by
  induction actions using List.reverseRecOn with
  | nil => exact ⟨{}, attended_start hjit hbackground, fun done hd => absurd hd List.not_mem_nil⟩
  | append_singleton actions action ih =>
    obtain ⟨w, hw, hfrom⟩ := ih
    have hjit' : ((start settings).after actions).settings.jit = true := by
      rw [settings_after]
      exact hjit
    obtain ⟨w', hw', hnew⟩ := hw.perform hjit' action
    rw [after_concat]
    refine ⟨w', hw', fun done hd => ?_⟩
    rcases hnew done hd with hold | ⟨mem, pc, job, rfl, hsubmits, rfl⟩
    · obtain ⟨job, hjob, rfl⟩ := hfrom done hold
      exact ⟨job, hjob.concat action, rfl⟩
    · exact ⟨job, ⟨actions, mem, pc, [], rfl, hsubmits⟩, rfl⟩

/-! ### Installations -/

/-- What an action receives from the worker. -/
def Action.received (c : Control) : Action → List Compiled
  | .visit _ _ => if c.settings.jit then c.worker.elim [] Worker.finished else []
  | .drain => c.worker.elim [] Worker.finished
  | .await => c.worker.elim [] fun w => w.receiveAll.1
  | _ => []

/-- The result is installed when those in the list are taken in, one after the other. -/
def InstallsFrom (c : Control) : List Compiled → Compiled → Prop
  | [], _ => False
  | next :: rest, done => next = done ∧ c.Expects next ∨ (c.accept next).InstallsFrom rest done

/-- The action installs the result. -/
def Installs (c : Control) (action : Action) (done : Compiled) : Prop :=
  c.InstallsFrom (action.received c) done

theorem InstallsFrom.mem {received : List Compiled} {done : Compiled}
    (h : c.InstallsFrom received done) : done ∈ received ∧ done.epoch = c.epoch := by
  induction received generalizing c with
  | nil => exact absurd h id
  | cons next rest ih =>
    rcases h with ⟨rfl, hexpects⟩ | hrest
    · exact ⟨List.mem_cons_self, hexpects.1⟩
    · obtain ⟨hmem, he⟩ := ih hrest
      exact ⟨List.mem_cons_of_mem _ hmem, he.trans (epoch_accept c next)⟩

theorem Attended.mem_of_received (h : c.Attended w) {action : Action} {done : Compiled}
    (hd : done ∈ action.received c) : done ∈ w.outstanding := by
  have hfinished : done ∈ w.finished → done ∈ w.outstanding := List.mem_append_left _
  cases action with
  | visit mem pc =>
    simp only [Action.received, h.worker, Option.elim_some] at hd
    split at hd
    · exact hfinished hd
    · exact absurd hd List.not_mem_nil
  | drain =>
    simp only [Action.received, h.worker, Option.elim_some] at hd
    exact hfinished hd
  | await =>
    simp only [Action.received, h.worker, Option.elim_some, h.balanced.receiveAll] at hd
    exact hd
  | _ => exact absurd hd List.not_mem_nil

/-- The words of the result were fetched by one of the actions, a visit, and there has been no
invalidation since. -/
def Fresh (settings : Settings) (actions : List Action) (done : Compiled) : Prop :=
  ∃ before mem pc rest job, actions = before ++ .visit mem pc :: rest ∧
    ((start settings).after before).Submits mem pc job ∧ done = job.finish ∧
    ∀ action ∈ rest, action.isInvalidation = false

/-- **What is installed is fresh.** -/
theorem fresh_of_installs (hjit : settings.jit = true)
    (hbackground : settings.backgroundCompile = true) {actions : List Action} {action : Action}
    {done : Compiled} (h : ((start settings).after actions).Installs action done) :
    Fresh settings actions done := by
  obtain ⟨w, hw, hfrom⟩ := exists_attended_after hjit hbackground actions
  obtain ⟨hreceived, hepoch⟩ := h.mem
  obtain ⟨job, hjob, rfl⟩ := hfrom done (hw.mem_of_received hreceived)
  obtain ⟨before, mem, pc, rest, hsplit, hsubmits, hnone⟩ := hjob.of_epoch_eq hepoch
  exact ⟨before, mem, pc, rest, job, hsplit, hsubmits, rfl, hnone⟩

/-! ### What is known of an entry comes from installations -/

/-- What came of compiling the entry at `pc`. -/
def outcome? (c : Control) (pc : UInt64) : Option (Option Block) :=
  c.blocks[pc]?.bind Entry.outcome?

variable {pc pc' : UInt64} {outcome : Option Block} {mem : Memory}

theorem outcome?_setEntry (c : Control) (pc pc' : UInt64) (entry : Entry) :
    (c.setEntry pc entry).outcome? pc' = if pc = pc' then entry.outcome? else c.outcome? pc' := by
  unfold outcome?
  rw [getElem?_setEntry]
  split <;> rfl

theorem outcome?_install (c : Control) (pc pc' : UInt64) (result : Except CompileError Block) :
    (c.install pc result).outcome? pc' =
      if pc = pc' then some result.toOption else c.outcome? pc' := by
  cases result with
  | ok block => exact outcome?_setEntry ..
  | error err => exact outcome?_setEntry { c with stats := _ } ..

theorem outcome?_acceptAll {received : List Compiled}
    (h : (received.foldl accept c).outcome? pc = some outcome) :
    c.outcome? pc = some outcome ∨
      ∃ done, c.InstallsFrom received done ∧ done.start = pc ∧ done.result.toOption = outcome := by
  induction received generalizing c with
  | nil => exact .inl h
  | cons next rest ih =>
    rcases ih h with hnext | ⟨done, hinstalls, hdone⟩
    · by_cases hexpects : c.Expects next
      · rw [accept_of_expects hexpects, outcome?_install] at hnext
        split at hnext
        · next hstart =>
          exact .inr ⟨next, .inl ⟨rfl, hexpects⟩, hstart, Option.some.inj hnext⟩
        · exact .inl hnext
      · rw [accept_of_not_expects hexpects] at hnext
        exact .inl hnext
    · exact .inr ⟨done, .inr hinstalls, hdone⟩

theorem accept_withWorker (c : Control) (worker : Option Worker) (done : Compiled) :
    accept { c with worker } done = { c.accept done with worker } := by
  by_cases hexpects : c.Expects done
  · rw [accept_of_expects hexpects]
    refine (accept_of_expects (c := { c with worker }) hexpects).trans ?_
    cases done.result <;> rfl
  · rw [accept_of_not_expects hexpects]
    exact accept_of_not_expects (c := { c with worker }) hexpects

/-- Which results are installed does not depend on the worker. -/
theorem InstallsFrom.of_withWorker {received : List Compiled} {done : Compiled}
    {worker : Option Worker} (h : InstallsFrom { c with worker } received done) :
    c.InstallsFrom received done := by
  induction received generalizing c with
  | nil => exact absurd h id
  | cons next rest ih =>
    rcases h with hnow | hlater
    · exact .inl hnow
    · rw [accept_withWorker] at hlater
      exact .inr (ih hlater)

/-- The entry is pinned without a job, as its first word cannot be fetched. -/
def Unfetchable (c : Control) (mem : Memory) (pc : UInt64) (outcome : Option Block) : Prop :=
  outcome = none ∧ ∃ fault, fetchBlock mem c.settings.maxBlockLength.toNat pc = .error fault

theorem Attended.outcome?_compile (h : c.Attended w)
    (ho : (c.compile mem pc').outcome? pc = some outcome) :
    c.outcome? pc = some outcome ∨ c.Unfetchable mem pc outcome := by
  have hbegun : (c.begun pc').outcome? pc = some outcome → c.outcome? pc = some outcome := by
    intro hs
    rw [begun, outcome?_setEntry] at hs
    split at hs
    · cases hs
    · exact hs
  cases hfetch : fetchBlock mem c.settings.maxBlockLength.toNat pc' with
  | error fault =>
    rw [compile_of_error hfetch, fail, outcome?_setEntry] at ho
    split at ho
    · next heq =>
      subst heq
      exact .inr ⟨(Option.some.inj ho).symm, fault, hfetch⟩
    · exact .inl (hbegun ho)
  | ok words =>
    rw [compile_of_ok hfetch h.worker] at ho
    exact .inl (hbegun ho)

theorem Attended.outcome?_submitDeferred (h : c.Attended w)
    (ho : (c.submitDeferred mem pc').outcome? pc = some outcome) :
    c.outcome? pc = some outcome ∨ c.Unfetchable mem pc outcome := by
  unfold Control.submitDeferred at ho
  split at ho
  · exact .inl ho
  · dsimp only at ho
    split at ho
    · exact .inl ho
    · split at ho
      · have hc : Attended { c with deferred := none } w := h.congr rfl rfl rfl
        exact hc.outcome?_compile ho
      · exact .inl ho

/-- Counting a visit keeps a pinned entry pinned, and pins no other. -/
theorem Attended.outcome?_countVisit (h : c.Attended w) {hits : Nat} {pinned : Bool}
    (hentry : c.blocks[pc']?.getD .unvisited = .interpreting hits pinned)
    (ho : (c.countVisit mem pc' hits pinned).outcome? pc = some outcome) :
    c.outcome? pc = some outcome := by
  have hset : (c.setEntry pc' (.interpreting (min (hits + 1) Entry.maxHits) pinned)).outcome? pc =
      some outcome := by
    unfold Control.countVisit at ho
    dsimp only at ho
    split at ho
    · exact ho
    · split at ho
      · exact ho
      · next hnone => exact absurd (congrArg Option.isSome h.worker) hnone
  rw [outcome?_setEntry] at hset
  split at hset
  · next heq =>
    subst heq
    cases pinned with
    | false => cases hset
    | true =>
      unfold outcome?
      cases hb : c.blocks[pc']? with
      | none =>
        rw [hb] at hentry
        cases hentry
      | some entry =>
        rw [hb] at hentry
        cases hentry
        exact hset
  · exact hset

theorem Attended.outcome?_visit (h : c.Attended w) (hjit : c.settings.jit = true)
    (ho : (c.visit mem pc').2.outcome? pc = some outcome) :
    c.drain.outcome? pc = some outcome ∨ c.Unfetchable mem pc outcome := by
  have hsettings : c.drain.settings = c.settings := (keeps_drain c).settings
  have hsubmit : (c.drain.submitDeferred mem pc').outcome? pc = some outcome := by
    obtain ⟨w', hw', -⟩ := h.drain.submitDeferred mem pc'
    unfold Control.visit at ho
    rw [if_pos hjit] at ho
    dsimp only at ho
    split at ho
    · exact ho
    · exact ho
    · next hentry => exact hw'.outcome?_countVisit hentry ho
  rcases h.drain.outcome?_submitDeferred hsubmit with hold | ⟨hnone, hfault⟩
  · exact .inl hold
  · exact .inr ⟨hnone, hsettings ▸ hfault⟩

theorem Attended.outcome?_drain (h : c.Attended w) (ho : c.drain.outcome? pc = some outcome) :
    c.outcome? pc = some outcome ∨
      ∃ done, c.InstallsFrom w.finished done ∧ done.start = pc ∧
        done.result.toOption = outcome := by
  simp only [Control.drain, h.worker] at ho
  rcases outcome?_acceptAll ho with hold | ⟨done, hinstalls, hdone⟩
  · exact .inl hold
  · exact .inr ⟨done, hinstalls.of_withWorker, hdone⟩

/-- Where the outcome of an entry may come from when an action is performed. -/
inductive Origin (c : Control) (action : Action) (pc : UInt64) (outcome : Option Block) : Prop where
  /-- It was known before. -/
  | known (h : c.outcome? pc = some outcome)
  /-- A result was installed. -/
  | installed (done : Compiled) (h : c.Installs action done) (start : done.start = pc)
    (result : done.result.toOption = outcome)
  /-- A visit found nothing that could be compiled. -/
  | unfetchable (mem : Memory) (pc' : UInt64) (visit : action = .visit mem pc')
    (h : c.Unfetchable mem pc outcome)

/-- **What is known of an entry comes from installations**, unless its words cannot be fetched. -/
theorem Attended.origin (h : c.Attended w) (hjit : c.settings.jit = true) {action : Action}
    (ho : (c.perform action).outcome? pc = some outcome) : c.Origin action pc outcome := by
  cases action with
  | visit mem pc' =>
    rcases h.outcome?_visit hjit ho with hdrain | hfault
    · rcases h.outcome?_drain hdrain with hold | ⟨done, hinstalls, hstart, hresult⟩
      · exact .known hold
      · refine .installed done ?_ hstart hresult
        simpa only [Installs, Action.received, hjit, h.worker, if_true, Option.elim_some] using
          hinstalls
    · exact .unfetchable mem pc' rfl hfault
  | drain =>
    rcases h.outcome?_drain ho with hold | ⟨done, hinstalls, hstart, hresult⟩
    · exact .known hold
    · refine .installed done ?_ hstart hresult
      simpa only [Installs, Action.received, h.worker, Option.elim_some] using hinstalls
  | await =>
    simp only [Control.perform, Control.await, h.worker] at ho
    rcases outcome?_acceptAll ho with hold | ⟨done, hinstalls, hstart, hresult⟩
    · exact .known hold
    · refine .installed done ?_ hstart hresult
      simpa only [Installs, Action.received, h.worker, Option.elim_some] using
        hinstalls.of_withWorker
  | work => exact .known ho
  | invalidate address =>
    refine .known ?_
    have hs : ((c.blocks[pc]?).filter (Entry.survives address pc)).bind Entry.outcome? =
        some outcome := by
      rw [← getElem?_invalidate]
      exact ho
    obtain ⟨entry, hentry, houtcome⟩ := Option.bind_eq_some_iff.1 hs
    exact Option.bind_eq_some_iff.2 ⟨entry, (Option.filter_eq_some_iff.1 hentry).1, houtcome⟩
  | invalidateAll =>
    simp [Control.perform, Control.invalidateAll, Control.newEpoch, outcome?] at ho
  | note stats atBlockEntry runLength => exact .known ho

end Control

namespace Engine

/-! ### The actions of an engine -/

/-- What happens to an engine and its worker: an event, or a receipt of results by itself. -/
inductive Turn where
  /-- An event. -/
  | event (event : Event)
  /-- The engine takes in what is finished. -/
  | drain

/-- The engine after a turn. -/
def turn (e : Engine) : Turn → Engine
  | .event event => e.apply event
  | .drain => { e with control := e.control.drain }

/-- The engine after a list of turns. -/
def turns (e : Engine) (l : List Turn) : Engine := l.foldl turn e

/-- Whether interpreting the next instruction discards compiled code. -/
def interpretFlushes (m : Machine) : Bool :=
  match Control.fetch m.mem m.cpu.pc with
  | .error _ => false
  | .ok word =>
    match execute word m.cpu.pc m with
    | .done _ flow => flow = .flush
    | .trapped _ _ => false

/-- Whether the next step discards compiled code. -/
def stepFlushes : Engine → Bool
  | ⟨m, c⟩ =>
    if c.atBlockEntry then
      match (Control.visit { c with atBlockEntry := false, runLength := 0 } m.mem m.cpu.pc).1 with
      | some block => (block.run m).2.flush
      | none => interpretFlushes m
    else interpretFlushes m

/-- The note that makes the counts and the position those of a control. -/
def noteOf (c : Control) : Control.Action := .note c.stats c.atBlockEntry c.runLength

/-- The invalidation by an instruction that discards compiled code. -/
def flushActions (flush : Bool) : List Control.Action := if flush then [.invalidateAll] else []

/-- The visit of the block entry at which a step begins, if it does. -/
def visitActions (e : Engine) : List Control.Action :=
  if e.control.atBlockEntry then
    [.note e.control.stats false 0, .visit e.machine.mem e.machine.cpu.pc]
  else []

/-- The actions of a step: a visit if it is at a block entry, then an invalidation if an
instruction asks for one. -/
def stepActions (e : Engine) : List Control.Action :=
  if e.machine.cpu.halted then []
  else e.visitActions ++ flushActions e.stepFlushes ++ [noteOf e.step.1.control]

/-- The actions of a turn. -/
def actions (e : Engine) : Turn → List Control.Action
  | .event .step => e.stepActions
  | .event (.setPc _) => [.note e.control.stats true 0]
  | .event (.setMemory _) => []
  | .event (.invalidate address) => [.invalidate address]
  | .event .invalidateAll => [.invalidateAll]
  | .event .await => [.await]
  | .event .work => [.work]
  | .drain => [.drain]

/-- The actions of a list of turns. -/
def history (e : Engine) : List Turn → List Control.Action
  | [] => []
  | turn :: rest => e.actions turn ++ (e.turn turn).history rest

variable {m : Machine} {c : Control} {e : Engine}

/-- Only the counts and the position in the block are different. -/
def Noted (c c' : Control) : Prop := c' = c.perform (noteOf c')

theorem noted_raise (m : Machine) (c : Control) (trap : Trap) :
    Noted c (raise ⟨m, c⟩ trap).1.control := by
  unfold raise
  dsimp only
  split <;> rfl

theorem noted_retire (c : Control) (flush endsBlock : Bool) :
    Noted (c.after (flushActions flush)) (retire c flush endsBlock) := by
  cases flush <;> simp only [retire, Bool.false_eq_true, if_false, if_true] <;> split <;> rfl

theorem noted_interpretOne (m : Machine) (c : Control) :
    Noted (c.after (flushActions (interpretFlushes m))) (interpretOne ⟨m, c⟩).1.control := by
  cases hfetch : Control.fetch m.mem m.cpu.pc with
  | error fault =>
    have hflush : interpretFlushes m = false := by simp only [interpretFlushes, hfetch]
    rw [hflush, interpretOne_of_fault hfetch]
    exact noted_raise ..
  | ok word =>
    rw [interpretOne_of_fetch hfetch]
    cases hexec : execute word m.cpu.pc m with
    | trapped m' trap =>
      have hflush : interpretFlushes m = false := by simp only [interpretFlushes, hfetch, hexec]
      rw [hflush]
      exact noted_raise ..
    | done m' flow =>
      have hflush : interpretFlushes m = decide (flow = .flush) := by
        simp only [interpretFlushes, hfetch, hexec]
      rw [hflush]
      exact noted_retire ..

theorem noted_runCompiled (m : Machine) (c : Control) (block : Block) :
    Noted (c.after (flushActions (block.run m).2.flush)) (runCompiled ⟨m, c⟩ block).1.control := by
  rcases hrun : Block.runWords block.start block.start block.words m with ⟨m', trap | exit⟩
  · have hflush : (block.run m).2.flush = false := by simp only [Block.run, hrun]
    rw [hflush, runCompiled_of_error hrun]
    exact noted_raise ..
  · have hflush : (block.run m).2.flush = exit.2 := by simp only [Block.run, hrun]
    rw [hflush, runCompiled_of_ok hrun]
    cases exit.2 <;> rfl

theorem noted_step (hh : e.machine.cpu.halted = false) :
    Noted ((e.control.after e.visitActions).after (flushActions e.stepFlushes))
      e.step.1.control := by
  obtain ⟨m, c⟩ := e
  cases ha : c.atBlockEntry with
  | false =>
    rw [step_of_not_atBlockEntry hh ha]
    simp only [visitActions, stepFlushes, ha, Bool.false_eq_true, if_false]
    exact noted_interpretOne m c
  | true =>
    rcases hv : Control.visit { c with atBlockEntry := false, runLength := 0 } m.mem m.cpu.pc with
      ⟨block?, c'⟩
    have hvisit : c.after (visitActions ⟨m, c⟩) = c' := by
      rw [visitActions, if_pos ha]
      exact congrArg Prod.snd hv
    rw [step_of_visit hh ha hv, hvisit]
    simp only [stepFlushes, ha, hv, if_true]
    cases block? with
    | none => exact noted_interpretOne m c'
    | some block => exact noted_runCompiled m c' block

/-- A step does to the control what its actions do. -/
theorem control_step (e : Engine) : e.step.1.control = e.control.after e.stepActions := by
  cases hh : e.machine.cpu.halted with
  | true => simp [step, stepActions, hh, Control.after]
  | false =>
    have hnoted : e.step.1.control = _ := noted_step hh
    rw [stepActions, if_neg (by simp [hh]), Control.after_concat, Control.after_append]
    exact hnoted

theorem control_turn (e : Engine) (turn : Turn) :
    (e.turn turn).control = e.control.after (e.actions turn) := by
  cases turn with
  | drain => rfl
  | event event =>
    cases event with
    | step => exact control_step e
    | _ => rfl

/-- **What happens to an engine is a list of actions.** -/
theorem control_turns (e : Engine) (l : List Turn) :
    (e.turns l).control = e.control.after (e.history l) := by
  induction l generalizing e with
  | nil => rfl
  | cons turn rest ih =>
    rw [history, Control.after_append, ← control_turn]
    exact ih (e.turn turn)

/-! ### The protocol -/

/-- **The engine and its worker keep to the protocol**, whatever happens to them and in whatever
order.  The count of messages is right.  An entry is marked as compiling if and only if exactly one
message of the current epoch is about it, and there are never two.  Every result that is installed
has its words from a visit after which there was no invalidation, and nothing else is ever known of
an entry, unless its words cannot be fetched.  After waiting, nothing is under way. -/
theorem background_protocol (mem : Memory) (entry : UInt64) (settings : Settings)
    (hjit : settings.jit = true) (hbackground : settings.backgroundCompile = true)
    (l : List Turn) :
    let e := (start mem entry settings).turns l
    let history := (start mem entry settings).history l
    e.control = (Control.start settings).after history ∧
    (∃ w, e.control.worker = some w ∧ w.inFlight = w.jobs.length + w.finished.length ∧
      ∀ a : UInt64, (e.control.blocks[a]? = some .compiling ↔
          w.outstanding.countP (Compiled.isFor a e.control.epoch) = 1) ∧
        w.outstanding.countP (Compiled.isFor a e.control.epoch) ≤ 1) ∧
    (∀ before action rest, history = before ++ action :: rest →
      (∀ done, ((Control.start settings).after before).Installs action done →
        Control.Fresh settings before done) ∧
      ∀ pc outcome, ((Control.start settings).after (before ++ [action])).outcome? pc =
        some outcome → ((Control.start settings).after before).Origin action pc outcome) ∧
    ∃ w, e.await.control.worker = some w ∧ w.inFlight = 0 ∧
      ∀ a : UInt64, e.await.control.blocks[a]? ≠ some .compiling := by
  intro e history
  have hhistory : e.control = (Control.start settings).after history := control_turns _ l
  obtain ⟨w, hw, -⟩ := Control.exists_attended_after hjit hbackground history
  rw [← hhistory] at hw
  refine ⟨hhistory, ⟨w, hw.worker, hw.balanced, fun a => ?_⟩, ?_, {}, hw.await.worker, rfl, ?_⟩
  · rw [hw.tracks.count a, ← Control.isCompiling_iff]
    cases e.control.isCompiling a <;> simp
  · intro before action rest _
    refine ⟨fun done => Control.fresh_of_installs hjit hbackground, fun pc outcome ho => ?_⟩
    obtain ⟨v, hv, -⟩ := Control.exists_attended_after hjit hbackground before
    have hsettings := Control.settings_after (Control.start settings) before
    rw [Control.after_concat] at ho
    exact hv.origin ((congrArg Settings.jit hsettings).trans hjit) ho
  · intro a ha
    have hmark : e.control.await.isCompiling a = true := Control.isCompiling_iff.2 ha
    have hcount := hw.await.tracks.count a
    rw [if_pos hmark] at hcount
    cases hcount

/-! ### Two blocks in a loop -/

/-- Two blocks, each of which branches to the other. -/
def pingPong : Memory := ⟨0x1000, #[0, 0, 0xe0, 0xc3, 0xfe, 0xff, 0xff, 0xc3], none, by decide⟩

/-- Compile at the first visit, in the background. -/
def hotAtOnce : Settings := { hotThreshold := 1, backgroundCompile := true }

theorem ofInstruction?_pingPong :
    Operation.ofInstruction? (.decode 0xc3e00000) = some (.branch .link) ∧
      Operation.ofInstruction? (.decode 0xc3fffffe) = some (.branch .link) :=
  ⟨Operation.ofInstruction?_of_registered ⟨.br, none⟩ rfl (by decide),
    Operation.ofInstruction?_of_registered ⟨.br, none⟩ rfl (by decide)⟩

theorem execute_pingPong (m : Machine) :
    execute 0xc3e00000 0x1000 m = .done m (.jump 0x1004) ∧
      execute 0xc3fffffe 0x1004 m = .done m (.jump 0x1000) :=
  ⟨execute_of_operation ofInstruction?_pingPong.1 _ m,
    execute_of_operation ofInstruction?_pingPong.2 _ m⟩

/-- Execution is at the first block, and no block was visited since the last invalidation. -/
structure AtFirst (e : Engine) (w : Worker) : Prop where
  /-- The machine is not halted. -/
  halted : e.machine.cpu.halted = false
  /-- The next instruction is that of the first block. -/
  pc : e.machine.cpu.pc = 0x1000
  /-- The blocks are in memory. -/
  mem : e.machine.mem = pingPong
  /-- Blocks are hot at once. -/
  settings : e.control.settings = hotAtOnce
  /-- The next instruction is a block entry. -/
  atBlockEntry : e.control.atBlockEntry = true
  /-- The table is empty. -/
  unvisited : ∀ a : UInt64, e.control.blocks[a]? = none
  /-- No entry is deferred. -/
  deferred : e.control.deferred = none
  /-- There is a worker. -/
  worker : e.control.worker = some w
  /-- Nothing is finished. -/
  finished : w.finished = []

/-- Execution has been through both blocks and is back at the first one. -/
structure WentRound (e e' : Engine) (w : Worker) : Prop where
  /-- Two branches were executed. -/
  machine : e'.machine = advance (advance e.machine 0x1004 1) 0x1000 1
  /-- Blocks are hot at once. -/
  settings : e'.control.settings = hotAtOnce
  /-- The next instruction is a block entry. -/
  atBlockEntry : e'.control.atBlockEntry = true
  /-- There was no invalidation. -/
  epoch : e'.control.epoch = e.control.epoch
  /-- Both branches were interpreted, and the compilation of the first one has begun. -/
  stats : e'.control.stats = { e.control.stats with
    interpreted := e.control.stats.interpreted + 2
    compilations := e.control.stats.compilations + 1 }
  /-- The first block is marked. -/
  first : e'.control.blocks[(0x1000 : UInt64)]? = some .compiling
  /-- The second block is hot. -/
  second : e'.control.blocks[(0x1004 : UInt64)]? = some (.interpreting 1 false)
  /-- The second block is to be submitted next. -/
  deferred : e'.control.deferred = some 0x1004
  /-- The worker has the job of the first block. -/
  worker : e'.control.worker = some (w.submit ⟨0x1000, [0xc3e00000], e.control.epoch⟩)

theorem atFirst_start : AtFirst (start pingPong 0x1000 hotAtOnce) {} :=
  ⟨rfl, rfl, rfl, rfl, rfl, fun a => by simp [start, Control.start], rfl, rfl, rfl⟩

/-- There is nothing to be taken in or submitted at the first block, and the visit defers it. -/
theorem AtFirst.step_eq {e : Engine} {w : Worker} (h : AtFirst e w) :
    let c : Control := { e.control with atBlockEntry := false, runLength := 0 }
    e.step = (⟨advance e.machine 0x1004 1, retire (c.deferring 0x1000) false true⟩, none) := by
  intro c
  have hready : c.drain.submitDeferred e.machine.mem e.machine.cpu.pc = c := by
    rw [Control.drain_of_idle (c := c) h.worker h.finished, Control.submitDeferred,
      show c.deferred = none from h.deferred]
  have hvisit : c.visit e.machine.mem e.machine.cpu.pc = (none, c.deferring 0x1000) := by
    have hjit : c.settings.jit = true := congrArg Settings.jit h.settings
    have hhot : c.settings.hotThreshold.toNat ≤ 1 := by
      rw [show c.settings = hotAtOnce from h.settings]
      decide
    have hworker : c.worker.isSome = true := Option.isSome_iff_exists.2 ⟨w, h.worker⟩
    rw [← h.pc]
    exact Control.visit_of_absent hjit hready (h.unvisited _) hhot hworker
  have hfetch : Control.fetch e.machine.mem e.machine.cpu.pc = .ok 0xc3e00000 := by
    rw [h.mem, h.pc]
    decide
  refine step_of_branch h.halted h.atBlockEntry hvisit hfetch ?_ rfl
  rw [h.pc]
  exact (execute_pingPong e.machine).1

/-- The first block is deferred when it is visited, and submitted when the second one is. -/
theorem AtFirst.goesRound {e : Engine} {w : Worker} (h : AtFirst e w) :
    ∃ e₁ e₂, e.step = (e₁, none) ∧ e₁.step = (e₂, none) ∧ WentRound e e₂ w := by
  have hfirst := h.step_eq
  obtain ⟨m, settings, blocks, epoch, stats, worker, entry, runLength, deferred⟩ := e
  obtain ⟨hhalted, -, hmem, hsettings, -, hunvisited, -, hworker, hfinished⟩ := h
  dsimp only at hhalted hmem hsettings hunvisited hworker
  subst hsettings hworker
  let m₁ : Machine := advance m 0x1004 1
  let c₁ : Control := ⟨hotAtOnce, blocks, epoch, stats, some w, false, 0, deferred⟩
  let c₂ : Control := { retire (c₁.deferring 0x1000) false true with
    atBlockEntry := false, runLength := 0 }
  let c₃ : Control := c₂.handedOver w 0x1000 [0xc3e00000]
  let c₄ : Control := c₃.deferring 0x1004
  have hblocks (a : UInt64) : c₂.blocks[a]? =
      if 0x1000 = a then some (.interpreting 1 false) else blocks[a]? :=
    c₁.getElem?_deferring 0x1000 a
  have hsecond : step ⟨m₁, retire (c₁.deferring 0x1000) false true⟩ =
      (⟨advance m₁ 0x1000 1, retire c₄ false true⟩, none) := by
    have hready : c₂.drain.submitDeferred pingPong 0x1004 = c₃ := by
      have hwords : Control.fetchBlock pingPong hotAtOnce.maxBlockLength.toNat 0x1000 =
          .ok [0xc3e00000] := by decide
      rw [Control.drain_of_idle (c := c₂) rfl hfinished]
      refine Control.submitDeferred_of_isOpen rfl rfl (by decide) ?_ hwords
      rw [hblocks, if_pos rfl]
      rfl
    have hvisit : c₂.visit m₁.mem m₁.cpu.pc = (none, c₄) := by
      have hhot : hotAtOnce.hotThreshold.toNat ≤ 1 := by decide
      show c₂.visit m.mem 0x1004 = _
      rw [hmem]
      refine Control.visit_of_absent rfl hready ?_ hhot rfl
      rw [Control.getElem?_handedOver, if_neg (by decide), hblocks, if_neg (by decide)]
      exact hunvisited _
    have hfetch : Control.fetch m₁.mem m₁.cpu.pc = .ok 0xc3fffffe := by
      show Control.fetch m.mem 0x1004 = _
      rw [hmem]
      decide
    exact step_of_branch hhalted rfl hvisit hfetch (execute_pingPong m₁).2 rfl
  refine ⟨_, _, hfirst, hsecond, ⟨rfl, rfl, rfl, rfl, rfl, ?_, ?_, rfl, rfl⟩⟩
  · show c₄.blocks[(0x1000 : UInt64)]? = _
    rw [Control.getElem?_deferring, if_neg (by decide), Control.getElem?_handedOver, if_pos rfl]
  · show c₄.blocks[(0x1004 : UInt64)]? = _
    rw [Control.getElem?_deferring, if_pos rfl]

theorem WentRound.back {e e' : Engine} {w : Worker} (hround : WentRound e e' w)
    (h : AtFirst e w) :
    e'.machine.cpu.halted = false ∧ e'.machine.cpu.pc = 0x1000 ∧ e'.machine.mem = pingPong := by
  rw [hround.machine]
  exact ⟨h.halted, rfl, h.mem⟩

/-- After an invalidation execution starts anew, but for the job that the worker has. -/
theorem WentRound.invalidateAll {e e' : Engine} {w : Worker} (hround : WentRound e e' w)
    (h : AtFirst e w) :
    AtFirst e'.invalidateAll (w.submit ⟨0x1000, [0xc3e00000], e.control.epoch⟩) := by
  obtain ⟨hhalted, hpc, hmem⟩ := hround.back h
  exact ⟨hhalted, hpc, hmem, hround.settings, hround.atBlockEntry,
    fun a => by simp [Engine.invalidateAll, Control.invalidateAll, Control.newEpoch], rfl,
    hround.worker, h.finished⟩

/-- A block is submitted, forgotten and submitted again before its first result comes back.  That
result is dropped; the second one is still to come, and the block is marked. -/
theorem background_protocol_pingPong :
    let l : List Turn := [.event .step, .event .step, .event .invalidateAll, .event .step,
      .event .step, .event .work, .drain]
    let e := (start pingPong 0x1000 hotAtOnce).turns l
    hotAtOnce.jit = true ∧ hotAtOnce.backgroundCompile = true ∧
      ∃ w, e.control.worker = some w ∧ w.inFlight = w.jobs.length + w.finished.length ∧
        w.outstanding = [CompileJob.finish ⟨0x1000, [0xc3e00000], 1⟩] ∧
        e.control.blocks[(0x1000 : UInt64)]? = some .compiling := by
  intro l e
  obtain ⟨e₁, e₂, hstep₁, hstep₂, hround⟩ := atFirst_start.goesRound
  have hagain := hround.invalidateAll atFirst_start
  obtain ⟨e₃, e₄, hstep₃, hstep₄, hround'⟩ := hagain.goesRound
  have hepoch : e₂.invalidateAll.control.epoch = 1 := congrArg (· + 1) hround.epoch
  have hturns : e.control = e₄.control.work.drain := by
    show Control.drain (Control.work
      (start pingPong 0x1000 hotAtOnce).step.1.step.1.invalidateAll.step.1.step.1.control) = _
    rw [hstep₁, hstep₂, hstep₃, hstep₄]
  -- The result that comes back is of the first epoch, so it is not expected.
  have hworked : e₄.control.work.worker = some ⟨[⟨0x1000, [0xc3e00000], 1⟩],
      [CompileJob.finish ⟨0x1000, [0xc3e00000], 0⟩], 2⟩ := by
    rw [Control.work, hround'.worker, hepoch]
    rfl
  have hdrained : e.control = { e₄.control.work with
      worker := some ⟨[⟨0x1000, [0xc3e00000], 1⟩], [], 1⟩ } := by
    rw [hturns, Control.drain_eq hworked]
    refine Control.accept_of_not_expects fun hexpects => ?_
    have hzero : 0 = e₄.control.epoch := hexpects.1
    rw [hround'.epoch, hepoch] at hzero
    cases hzero
  obtain ⟨-, ⟨w, hw, hcount, hmarks⟩, -⟩ :=
    background_protocol pingPong 0x1000 hotAtOnce rfl rfl l
  obtain ⟨hmark, -⟩ := hmarks 0x1000
  have hworker : w = ⟨[⟨0x1000, [0xc3e00000], 1⟩], [], 1⟩ :=
    Option.some.inj (hw.symm.trans (congrArg Control.worker hdrained))
  have houtstanding : w.outstanding = [CompileJob.finish ⟨0x1000, [0xc3e00000], 1⟩] := by
    rw [hworker]
    rfl
  refine ⟨rfl, rfl, w, hw, hcount, houtstanding, hmark.2 ?_⟩
  have he : e.control.epoch = 1 := by
    rw [hdrained]
    exact hround'.epoch.trans hepoch
  show w.outstanding.countP (Compiled.isFor 0x1000 e.control.epoch) = 1
  rw [houtstanding, he]
  rfl

end Engine

end AlphaMachine
