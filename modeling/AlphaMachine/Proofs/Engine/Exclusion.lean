import AlphaMachine.Proofs.Engine.Visits

/-!
# Compiling while executing

With a worker, an entry that has become hot is deferred, and its job is handed over by the visit of
another entry.  So the visit of an entry never hands over a job for this entry, and neither does
anything up to the next visit (`Control.jobsFor_visit`, `Control.jobsFor_after`).

But execution can be back at the entry before the worker is done with its job: while a block is
executed, the worker has those jobs for it that it had before, except for what it finishes in the
meantime.  The block is compiled while it is executed exactly if there was such a job
(`Engine.executing_compiled_iff`).
-/

namespace AlphaMachine

namespace Control

variable {c : Control} {w : Worker} {mem : Memory} {pc a : UInt64} {settings : Settings}

/-! ### Jobs -/

/-- The jobs that the worker has not finished. -/
def jobs (c : Control) : List CompileJob := c.worker.elim [] Worker.jobs

/-- The jobs for the entry `a` that the worker has not finished. -/
def jobsFor (c : Control) (a : UInt64) : List CompileJob := c.jobs.filter (·.start = a)

theorem Attended.jobs_eq (h : c.Attended w) : c.jobs = w.jobs := by
  rw [jobs, h.worker]
  rfl

theorem jobs_drain (c : Control) : c.drain.jobs = c.jobs := by
  unfold drain
  split
  · rfl
  · next w hw =>
    have hworker := worker_acceptAll w.receive.1 { c with worker := some w.receive.2 }
    rw [jobs, jobs, hw]
    exact congrArg (·.elim [] Worker.jobs) hworker

/-- A compilation adds a job for its own entry, or none. -/
theorem jobsFor_compile (hworker : c.worker.isSome) (mem : Memory) (hne : pc ≠ a) :
    (c.compile mem pc).jobsFor a = c.jobsFor a := by
  obtain ⟨w, hw⟩ := Option.isSome_iff_exists.1 hworker
  cases hfetch : fetchBlock mem c.settings.maxBlockLength.toNat pc with
  | error fault =>
    rw [compile_of_error hfetch]
    rfl
  | ok words =>
    rw [compile_of_ok hfetch hw, jobsFor, jobsFor, jobs, jobs, hw]
    simp [Worker.submit, hne]

/-- **The visit of an entry hands over no job for this entry.** -/
theorem Attended.jobsFor_visit (h : c.Attended w) (mem : Memory) (a : UInt64) :
    (c.visit mem a).2.jobsFor a = c.jobsFor a := by
  have hdrain : c.drain.jobsFor a = c.jobsFor a := by rw [jobsFor, jobs_drain, jobsFor]
  have hsubmit : (c.drain.submitDeferred mem a).jobsFor a = c.drain.jobsFor a := by
    unfold Control.submitDeferred
    split
    · rfl
    · next entry _ =>
      dsimp only
      split
      · rfl
      · next hne =>
        split
        · -- Another entry was deferred, and its job is not for this one.
          have hsome : c.drain.worker.isSome := by rw [h.drain.worker]; rfl
          exact jobsFor_compile (c := { c.drain with deferred := none }) hsome mem hne
        · rfl
  obtain ⟨w', hw', -⟩ := h.drain.submitDeferred mem a
  unfold Control.visit
  split
  · dsimp only
    split
    · exact hsubmit.trans hdrain
    · exact hsubmit.trans hdrain
    · next hits pinned _ =>
      refine Eq.trans ?_ (hsubmit.trans hdrain)
      -- With a worker, a hot entry is only deferred.
      unfold Control.countVisit
      dsimp only
      split
      · rfl
      · split
        · rfl
        · next hnone =>
          refine absurd ?_ hnone
          show (c.drain.submitDeferred mem a).worker.isSome = true
          rw [hw'.worker]
          rfl
  · rfl

/-- The action is the visit of a block entry. -/
def Action.isVisit : Action → Bool
  | .visit _ _ => true
  | _ => false

/-- Between visits the worker gets no jobs; it may finish some, the oldest first. -/
theorem Attended.jobs_perform (h : c.Attended w) {action : Action}
    (hvisit : action.isVisit = false) : (c.perform action).jobs <:+ c.jobs := by
  cases action with
  | visit mem pc => cases hvisit
  | drain =>
    simp only [Control.perform, jobs_drain, List.suffix_refl]
  | await =>
    rw [Control.perform, h.await.jobs_eq]
    exact List.nil_suffix
  | work =>
    rw [Control.perform, h.work.jobs_eq, h.jobs_eq]
    unfold Worker.work
    split
    · exact List.suffix_refl _
    · next job rest hjobs =>
      rw [hjobs]
      exact List.suffix_cons job rest
  | invalidate | invalidateAll | note => exact List.suffix_refl _

theorem Attended.jobsFor_perform (h : c.Attended w) {action : Action}
    (hvisit : action.isVisit = false) (a : UInt64) :
    (c.perform action).jobsFor a <:+ c.jobsFor a :=
  (h.jobs_perform hvisit).filter _

/-! ### Histories -/

theorem attended_after (hjit : settings.jit = true)
    (hbackground : settings.backgroundCompile = true) (actions : List Action) :
    ∃ w, ((start settings).after actions).Attended w := by
  obtain ⟨w, hw, -⟩ := exists_attended_after hjit hbackground actions
  exact ⟨w, hw⟩

/-- **Until the next visit the jobs for an entry only get fewer.** -/
theorem jobsFor_after (hjit : settings.jit = true)
    (hbackground : settings.backgroundCompile = true) (before : List Action)
    {between : List Action} (hbetween : ∀ action ∈ between, action.isVisit = false) (a : UInt64) :
    ((start settings).after (before ++ between)).jobsFor a <:+
      ((start settings).after before).jobsFor a := by
  induction between using List.reverseRecOn with
  | nil => simp only [List.append_nil, List.suffix_refl]
  | append_singleton between action ih =>
    obtain ⟨w, hw⟩ := attended_after hjit hbackground (before ++ between)
    have haction : action.isVisit = false := hbetween action (by simp)
    rw [← List.append_assoc, after_concat]
    refine (hw.jobsFor_perform haction a).trans (ih fun action' hmem => ?_)
    exact hbetween action' (List.mem_append_left _ hmem)

/-- Every job was handed over by a visit. -/
theorem submitted_of_mem_jobs (hjit : settings.jit = true)
    (hbackground : settings.backgroundCompile = true) {actions : List Action} {job : CompileJob}
    (h : job ∈ ((start settings).after actions).jobs) : Submitted settings actions job := by
  induction actions using List.reverseRecOn with
  | nil =>
    rw [after, List.foldl_nil, (attended_start hjit hbackground).jobs_eq] at h
    cases h
  | append_singleton actions action ih =>
    obtain ⟨w, hw⟩ := attended_after hjit hbackground actions
    rw [after_concat] at h
    cases hvisit : action.isVisit with
    | false => exact (ih ((hw.jobs_perform hvisit).subset h)).concat action
    | true =>
      cases action with
      | visit mem pc =>
        have hjit' : ((start settings).after actions).settings.jit = true := by
          rw [settings_after]
          exact hjit
        obtain ⟨w', hw', rfl | ⟨job', hjob', rfl⟩⟩ := hw.visit hjit' mem pc
        · rw [perform, hw'.jobs_eq] at h
          exact (ih (hw.jobs_eq ▸ h)).concat _
        · rw [perform, hw'.jobs_eq] at h
          rcases List.mem_append.1 h with hold | hnew
          · exact (ih (hw.jobs_eq ▸ hold)).concat _
          · cases List.mem_singleton.1 hnew
            exact ⟨actions, mem, pc, [], rfl, hjob', w, hw.worker, hw'.worker⟩
      | _ => cases hvisit

/-- The visit that hands over a job is one of another entry. -/
theorem Submits.start_ne {job : CompileJob} (hw : c.Attended w) (h : c.Submits mem pc job) :
    job.start ≠ pc := by
  rintro rfl
  obtain ⟨w', hw', hsubmit⟩ := h.worker
  cases hw.worker.symm.trans hw'
  have hsame := hw.jobsFor_visit mem job.start
  rw [jobsFor, jobsFor, jobs, jobs, hsubmit, hw.worker] at hsame
  have hlength := congrArg List.length hsame
  simp [Worker.submit, Worker.receive] at hlength

end Control

namespace Engine

/-- **A block is compiled while it is executed exactly if its job was under way before.**  Take a
visit of the entry `a` and what follows up to the next visit of any entry.  There is a job for `a`
that the worker has not finished at some point of this period if and only if there was one before
the period.  No job for `a` is added in the period, and the jobs that there are were handed over
before it, by visits of other entries. -/
theorem executing_compiled_iff (mem : Memory) (entry : UInt64) (settings : Settings)
    (hjit : settings.jit = true) (hbackground : settings.backgroundCompile = true)
    (l : List Turn) :
    let c := Control.start settings
    let history := (start mem entry settings).history l
    ((start mem entry settings).turns l).control = c.after history ∧
    ∀ before mem a between rest, history = before ++ .visit mem a :: (between ++ rest) →
      (∀ action ∈ between, action.isVisit = false) →
      ((∃ p q, between = p ++ q ∧ (c.after (before ++ .visit mem a :: p)).jobsFor a ≠ []) ↔
        (c.after before).jobsFor a ≠ []) ∧
      (∀ p q, between = p ++ q →
        (c.after (before ++ .visit mem a :: p)).jobsFor a <:+ (c.after before).jobsFor a) ∧
      ∀ job ∈ (c.after before).jobsFor a, ∃ earlier mem' pc later,
        before = earlier ++ .visit mem' pc :: later ∧
          (c.after earlier).Submits mem' pc job ∧ pc ≠ a := by
  intro c history
  refine ⟨control_turns _ l, ?_⟩
  intro before mem a between rest _ hbetween
  obtain ⟨w, hw⟩ := Control.attended_after hjit hbackground before
  have hvisit : (c.after (before ++ [.visit mem a])).jobsFor a = (c.after before).jobsFor a := by
    rw [Control.after_concat]
    exact hw.jobsFor_visit mem a
  have hfewer (p q : List Control.Action) (hp : between = p ++ q) :
      (c.after (before ++ .visit mem a :: p)).jobsFor a <:+ (c.after before).jobsFor a := by
    have hquiet : ∀ action ∈ p, action.isVisit = false :=
      fun action ha => hbetween action (hp ▸ List.mem_append_left _ ha)
    have hsuffix :=
      Control.jobsFor_after hjit hbackground (before ++ [.visit mem a]) hquiet a
    rw [List.append_assoc, List.singleton_append] at hsuffix
    exact hvisit ▸ hsuffix
  refine ⟨⟨?_, ?_⟩, hfewer, ?_⟩
  · rintro ⟨p, q, hp, hjobs⟩ hnone
    have hsuffix := hfewer p q hp
    rw [hnone, List.suffix_nil] at hsuffix
    exact hjobs hsuffix
  · intro hjobs
    refine ⟨[], between, rfl, ?_⟩
    rw [hvisit]
    exact hjobs
  · intro job hjob
    obtain ⟨hmem, hstart⟩ := List.mem_filter.1 hjob
    obtain ⟨earlier, mem', pc, later, hsplit, hsubmits⟩ :=
      Control.submitted_of_mem_jobs hjit hbackground hmem
    obtain ⟨v, hv⟩ := Control.attended_after hjit hbackground earlier
    refine ⟨earlier, mem', pc, later, hsplit, hsubmits, ?_⟩
    rintro rfl
    exact hsubmits.start_ne hv (of_decide_eq_true hstart)

/-! ### Back too early -/

theorem history_append (e : Engine) (l l' : List Turn) :
    e.history (l ++ l') = e.history l ++ (e.turns l).history l' := by
  induction l generalizing e with
  | nil => rfl
  | cons turn rest ih =>
    rw [List.cons_append, history, history, ih, List.append_assoc]
    rfl

/-- Execution is back at the first block while the worker still has its job. -/
theorem executing_compiled_iff_pingPong :
    let l : List Turn := [.event .step, .event .step, .event .step]
    let c := Control.start hotAtOnce
    hotAtOnce.jit = true ∧ hotAtOnce.backgroundCompile = true ∧
      ∃ before between,
        (start pingPong 0x1000 hotAtOnce).history l =
          before ++ .visit pingPong 0x1000 :: (between ++ []) ∧
        (∀ action ∈ between, action.isVisit = false) ∧
        ∃ p q, between = p ++ q ∧
          (c.after (before ++ .visit pingPong 0x1000 :: p)).jobsFor 0x1000 ≠ [] := by
  intro l c
  obtain ⟨e₁, e₂, hstep₁, hstep₂, hround⟩ := atFirst_start.goesRound
  let e := (start pingPong 0x1000 hotAtOnce).turns [.event .step, .event .step]
  have he : e = e₂ := by
    show (start pingPong 0x1000 hotAtOnce).step.1.step.1 = _
    rw [hstep₁, hstep₂]
  obtain ⟨hhalted, hpc, hmem⟩ : e.machine.cpu.halted = false ∧ e.machine.cpu.pc = 0x1000 ∧
      e.machine.mem = pingPong := he ▸ hround.back atFirst_start
  have hentry : e.control.atBlockEntry = true := he ▸ hround.atBlockEntry
  have hjobs : e.control.jobsFor 0x1000 ≠ [] := by
    rw [he, Control.jobsFor, Control.jobs, hround.worker]
    simp [Worker.submit]
  let before := (start pingPong 0x1000 hotAtOnce).history [.event .step, .event .step] ++
    [.note e.control.stats false 0]
  let between := flushActions e.stepFlushes ++ [noteOf e.step.1.control]
  have hhistory : (start pingPong 0x1000 hotAtOnce).history l =
      before ++ .visit pingPong 0x1000 :: (between ++ []) := by
    have hlast : e.history [.event .step] = .note e.control.stats false 0 ::
        .visit pingPong 0x1000 :: between := by
      rw [history, history, actions, stepActions_of_atBlockEntry hhalted hentry, hpc, hmem,
        List.append_nil]
    rw [show l = [.event .step, .event .step] ++ [.event .step] from rfl, history_append, hlast,
      List.append_nil, List.append_assoc]
    rfl
  have hbetween : ∀ action ∈ between, action.isVisit = false := by
    intro action haction
    rcases List.mem_append.1 haction with hflush | hnote
    · unfold flushActions at hflush
      split at hflush
      · cases List.mem_singleton.1 hflush
        rfl
      · cases hflush
    · cases List.mem_singleton.1 hnote
      rfl
  have hbefore : (c.after before).jobsFor 0x1000 ≠ [] := by
    have hturns : c.after _ = e.control := (control_turns (start pingPong 0x1000 hotAtOnce) _).symm
    rw [Control.after_concat, hturns]
    exact hjobs
  obtain ⟨-, hperiod⟩ := executing_compiled_iff pingPong 0x1000 hotAtOnce rfl rfl l
  obtain ⟨hiff, -⟩ := hperiod before pingPong 0x1000 between [] hhistory hbetween
  exact ⟨rfl, rfl, before, between, hhistory, hbetween, hiff.2 hbefore⟩

end Engine

end AlphaMachine
