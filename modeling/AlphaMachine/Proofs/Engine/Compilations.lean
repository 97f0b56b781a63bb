import AlphaMachine.Proofs.Engine.Protocol

/-!
# Calls of the compiler

A visit begins compilations: of the deferred entry, once execution has reached another one, and of
the visited entry itself, if this makes it hot and there is no worker.  `Control.visitCalls` lists
the entries that a visit compiles, and the equations `Control.submitDeferred_of_due` and
`Control.countVisit_of_hot`, with their counterparts, say that these are the calls that are made.

An entry is compiled only while it is open, that is, absent from the table or waiting for more
visits.  A call closes it, and only an invalidation that removes the entry opens it again.  So there
is room for one call in any period without such a removal:

* `Control.count_callsOf_le` : a move uses up the room it takes (one step);
* `Control.count_calls_le` : there is no more than one call (a whole run).

Nothing here depends on which results the worker returns, or when, or in what order: a move may put
any results in its queue (`Control.Move.arrive`).
-/

namespace AlphaMachine

/-- Whether an entry is interpreted. -/
def Entry.isInterpreting : Entry → Bool
  | .interpreting _ _ => true
  | _ => false

namespace Control

variable {c : Control} {mem : Memory} {pc a : UInt64} {hits : Nat} {pinned : Bool}

/-! ### Calls -/

/-- The deferred entry that a visit of `pc` compiles. -/
def due? (c : Control) (pc : UInt64) : Option UInt64 :=
  c.deferred.filter fun entry => entry != pc && c.blocks[entry]?.any Entry.isOpen

/-- Whether one more visit of an interpreted entry makes the engine compile it at once. -/
def isHot (c : Control) (hits : Nat) (pinned : Bool) : Bool :=
  !(pinned || min (hits + 1) Entry.maxHits < c.settings.hotThreshold.toNat) && c.worker.isNone

/-- The entries that a visit compiles, in this order. -/
def visitCalls (c : Control) (mem : Memory) (pc : UInt64) : List UInt64 :=
  if c.settings.jit then
    (c.drain.due? pc).toList ++
      match (c.drain.submitDeferred mem pc).blocks[pc]?.getD .unvisited with
      | .interpreting hits pinned =>
        if (c.drain.submitDeferred mem pc).isHot hits pinned then [pc] else []
      | _ => []
  else []

theorem submitDeferred_of_due {entry : UInt64} (h : c.due? pc = some entry) (mem : Memory) :
    c.submitDeferred mem pc = { c with deferred := none }.compile mem entry := by
  obtain ⟨hdeferred, hdue⟩ := Option.filter_eq_some_iff.1 h
  rw [Bool.and_eq_true, bne_iff_ne] at hdue
  simp only [submitDeferred, hdeferred, if_neg hdue.1, if_pos hdue.2]

theorem submitDeferred_of_not_due (h : c.due? pc = none) (mem : Memory) :
    ∃ deferred, c.submitDeferred mem pc = { c with deferred } := by
  unfold submitDeferred
  split
  · exact ⟨c.deferred, rfl⟩
  · next entry hdeferred =>
    rw [due?, hdeferred] at h
    dsimp only
    split
    · exact ⟨c.deferred, rfl⟩
    · next hne =>
      rw [if_neg fun hopen => ?_]
      · exact ⟨none, rfl⟩
      · simp [Option.filter, hne, hopen] at h

theorem countVisit_of_hot (h : c.isHot hits pinned = true) (mem : Memory) (pc : UInt64) :
    c.countVisit mem pc hits pinned =
      (c.setEntry pc (.interpreting (min (hits + 1) Entry.maxHits) pinned)).compile mem pc := by
  simp only [isHot, Bool.and_eq_true, Bool.not_eq_true', Option.isNone_iff_eq_none] at h
  obtain ⟨hready, hworker⟩ := h
  simp only [countVisit, setEntry, hready, hworker, Option.isSome_none, Bool.false_eq_true,
    if_false]

theorem countVisit_of_not_hot (h : c.isHot hits pinned = false) (mem : Memory) (pc : UInt64) :
    ∃ deferred, c.countVisit mem pc hits pinned =
      { c.setEntry pc (.interpreting (min (hits + 1) Entry.maxHits) pinned) with deferred } := by
  unfold countVisit
  dsimp only
  split
  · exact ⟨c.deferred, rfl⟩
  · next hcold =>
    split
    · exact ⟨some pc, rfl⟩
    · next hworker =>
      have hhot : c.isHot hits pinned = true := by
        rw [isHot, Bool.and_eq_true]
        exact ⟨congrArg not (Bool.eq_false_iff.2 hcold),
          by simpa [setEntry] using hworker⟩
      cases h.symm.trans hhot

/-- The control once results are taken in and the deferred entry is submitted. -/
def ready (c : Control) (mem : Memory) (pc : UInt64) : Control := c.drain.submitDeferred mem pc

/-- A visit of an entry that is not interpreted ends here; otherwise it is counted. -/
theorem visit_cases (hjit : c.settings.jit = true) (mem : Memory) (pc : UInt64) :
    ((c.ready mem pc).blocks[pc]?.getD .unvisited).isInterpreting = false ∧
        (c.visit mem pc).2 = c.ready mem pc ∧
        c.visitCalls mem pc = (c.drain.due? pc).toList ∨
      ∃ hits pinned, (c.ready mem pc).blocks[pc]?.getD .unvisited = .interpreting hits pinned ∧
        (c.visit mem pc).2 = (c.ready mem pc).countVisit mem pc hits pinned ∧
        c.visitCalls mem pc = (c.drain.due? pc).toList ++
          if (c.ready mem pc).isHot hits pinned then [pc] else [] := by
  unfold visit visitCalls
  rw [if_pos hjit, if_pos hjit]
  change ((c.drain.submitDeferred mem pc).blocks[pc]?.getD .unvisited).isInterpreting = _ ∧ _ ∨
    ∃ hits pinned, (c.drain.submitDeferred mem pc).blocks[pc]?.getD .unvisited = _ ∧ _
  dsimp only
  cases hentry : (c.drain.submitDeferred mem pc).blocks[pc]?.getD .unvisited with
  | compiled block => exact .inl ⟨rfl, rfl, List.append_nil _⟩
  | compiling => exact .inl ⟨rfl, rfl, List.append_nil _⟩
  | interpreting hits pinned => exact .inr ⟨hits, pinned, rfl, rfl, rfl⟩

/-! ### The count of compilations -/

theorem compilations_install (c : Control) (pc : UInt64) (result : Except CompileError Block) :
    (c.install pc result).stats.compilations = c.stats.compilations := by
  cases result <;> rfl

theorem compilations_compile (c : Control) (mem : Memory) (pc : UInt64) :
    (c.compile mem pc).stats.compilations = c.stats.compilations + 1 := by
  unfold compile
  dsimp only
  split
  · rfl
  · split
    · rfl
    · rw [compilations_install]
      rfl

theorem compilations_acceptAll (received : List Compiled) (c : Control) :
    (received.foldl accept c).stats.compilations = c.stats.compilations := by
  induction received generalizing c with
  | nil => rfl
  | cons done rest ih =>
    rw [List.foldl_cons, ih]
    unfold accept
    split
    · exact compilations_install ..
    · rfl

theorem compilations_drain (c : Control) : c.drain.stats.compilations = c.stats.compilations := by
  unfold drain
  split
  · rfl
  · exact compilations_acceptAll ..

theorem compilations_await (c : Control) : c.await.stats.compilations = c.stats.compilations := by
  unfold await
  split
  · rfl
  · exact compilations_acceptAll ..

theorem compilations_submitDeferred (c : Control) (mem : Memory) (pc : UInt64) :
    (c.submitDeferred mem pc).stats.compilations =
      c.stats.compilations + (c.due? pc).toList.length := by
  cases hdue : c.due? pc with
  | none =>
    obtain ⟨deferred, heq⟩ := submitDeferred_of_not_due hdue mem
    rw [heq]
    rfl
  | some entry =>
    rw [submitDeferred_of_due hdue, compilations_compile]
    rfl

theorem compilations_countVisit (c : Control) (mem : Memory) (pc : UInt64) (hits : Nat)
    (pinned : Bool) :
    (c.countVisit mem pc hits pinned).stats.compilations =
      c.stats.compilations + (if c.isHot hits pinned then [pc] else []).length := by
  cases hhot : c.isHot hits pinned with
  | false =>
    obtain ⟨deferred, heq⟩ := countVisit_of_not_hot hhot mem pc
    rw [heq]
    rfl
  | true =>
    rw [countVisit_of_hot hhot, compilations_compile]
    rfl

/-- **A visit counts the compilations that it begins.** -/
theorem compilations_visit (c : Control) (mem : Memory) (pc : UInt64) :
    (c.visit mem pc).2.stats.compilations =
      c.stats.compilations + (c.visitCalls mem pc).length := by
  cases hjit : c.settings.jit with
  | false => simp [visit, visitCalls, hjit]
  | true =>
    have hready : (c.ready mem pc).stats.compilations =
        c.stats.compilations + (c.drain.due? pc).toList.length := by
      rw [ready, compilations_submitDeferred, compilations_drain]
    rcases visit_cases hjit mem pc with ⟨-, hvisit, hcalls⟩ | ⟨hits, pinned, -, hvisit, hcalls⟩
    · rw [hvisit, hcalls, hready]
    · rw [hvisit, hcalls, compilations_countVisit, hready, List.length_append, Nat.add_assoc]

/-! ### Open entries -/

/-- The entry may still be compiled: there is room for one call. -/
def room (c : Control) (a : UInt64) : Nat := if c.blocks[a]?.all Entry.isOpen then 1 else 0

theorem room_le_one (c : Control) (a : UInt64) : c.room a ≤ 1 := by
  unfold room
  split <;> omega

theorem room_congr {c c' : Control} (h : c'.blocks[a]? = c.blocks[a]?) : c'.room a = c.room a := by
  rw [room, h, room]

theorem room_setEntry (c : Control) (pc a : UInt64) (entry : Entry) :
    (c.setEntry pc entry).room a =
      if pc = a then (if entry.isOpen then 1 else 0) else c.room a := by
  unfold room
  rw [getElem?_setEntry]
  split <;> rfl

/-- **A call closes the entry**, and leaves the others alone. -/
theorem exists_getElem?_compile (c : Control) (mem : Memory) (pc : UInt64) :
    ∃ entry : Entry, entry.isOpen = false ∧
      ∀ a, (c.compile mem pc).blocks[a]? = if pc = a then some entry else c.blocks[a]? := by
  have hset (entry : Entry) (a : UInt64) : ((c.begun pc).setEntry pc entry).blocks[a]? =
      if pc = a then some entry else c.blocks[a]? := by
    rw [getElem?_setEntry, begun, getElem?_setEntry]
    split <;> rfl
  -- The entry is closed however far the compilation gets: pinned, handed over, or finished.
  unfold compile
  dsimp only
  split
  · exact ⟨.failed, rfl, hset _⟩
  · next words _ =>
    split
    · exact ⟨.compiling, rfl, fun a => getElem?_setEntry _ pc a _⟩
    · cases Block.compile pc words with
      | ok block => exact ⟨.compiled block, rfl, hset _⟩
      | error err => exact ⟨.failed, rfl, hset _⟩

theorem room_compile (c : Control) (mem : Memory) (pc a : UInt64) :
    (c.compile mem pc).room a = if pc = a then 0 else c.room a := by
  obtain ⟨entry, hclosed, hentry⟩ := exists_getElem?_compile c mem pc
  rw [room, hentry]
  split
  · simp [hclosed]
  · rfl

/-! ### Room along a visit -/

theorem room_acceptAll (received : List Compiled) (c : Control) (a : UInt64) :
    (received.foldl accept c).room a ≤ c.room a := by
  induction received generalizing c with
  | nil => exact Nat.le_refl _
  | cons done rest ih =>
    refine Nat.le_trans (ih _) ?_
    unfold accept
    split
    · have hinstall : (c.install done.start done.result).room a =
          if done.start = a then 0 else c.room a := by
        cases done.result <;> exact room_setEntry ..
      rw [hinstall]
      split <;> omega
    · exact Nat.le_refl _

theorem room_drain (c : Control) (a : UInt64) : c.drain.room a ≤ c.room a := by
  unfold drain
  split
  · exact Nat.le_refl _
  · exact room_acceptAll ..

theorem room_await (c : Control) (a : UInt64) : c.await.room a ≤ c.room a := by
  unfold await
  split
  · exact Nat.le_refl _
  · exact room_acceptAll ..

theorem room_of_due {entry : UInt64} (h : c.due? pc = some entry) : c.room entry = 1 := by
  obtain ⟨-, hdue⟩ := Option.filter_eq_some_iff.1 h
  rw [Bool.and_eq_true] at hdue
  obtain ⟨e, he, hopen⟩ := (Option.any_eq_true _ _).1 hdue.2
  simp [room, he, hopen]

theorem room_submitDeferred (c : Control) (mem : Memory) (pc a : UInt64) :
    (c.due? pc).toList.count a + (c.submitDeferred mem pc).room a ≤ c.room a := by
  cases hdue : c.due? pc with
  | none =>
    obtain ⟨deferred, heq⟩ := submitDeferred_of_not_due hdue mem
    rw [heq, Option.toList_none, List.count_nil, Nat.zero_add]
    exact Nat.le_refl _
  | some entry =>
    have hroom := room_of_due hdue
    rw [submitDeferred_of_due hdue, room_compile, Option.toList_some, List.count_singleton]
    by_cases he : entry = a
    · subst he
      simp [hroom]
    · simp only [beq_iff_eq, he, if_false, Nat.zero_add]
      exact Nat.le_refl _

theorem room_of_interpreting (h : c.blocks[pc]?.getD .unvisited = .interpreting hits pinned) :
    c.room pc = if pinned then 0 else 1 := by
  unfold room
  cases hb : c.blocks[pc]? with
  | none =>
    rw [hb] at h
    cases h
    rfl
  | some entry =>
    rw [hb] at h
    cases h
    cases pinned <;> rfl

theorem room_countVisit (h : c.blocks[pc]?.getD .unvisited = .interpreting hits pinned)
    (mem : Memory) (a : UInt64) :
    (if c.isHot hits pinned then [pc] else []).count a +
      (c.countVisit mem pc hits pinned).room a ≤ c.room a := by
  have hroom := room_of_interpreting h
  have hset : (c.setEntry pc (.interpreting (min (hits + 1) Entry.maxHits) pinned)).room a =
      c.room a := by
    rw [room_setEntry]
    split
    · next heq =>
      rw [← heq, hroom]
      cases pinned <;> rfl
    · rfl
  cases hhot : c.isHot hits pinned with
  | false =>
    obtain ⟨deferred, heq⟩ := countVisit_of_not_hot hhot mem pc
    rw [heq]
    exact Nat.le_of_eq ((Nat.zero_add _).trans hset)
  | true =>
    -- A pinned entry has no room, but it is not hot either.
    have hpinned : pinned = false := by
      cases pinned with
      | false => rfl
      | true => simp [isHot] at hhot
    rw [countVisit_of_hot hhot, room_compile, hset, if_pos rfl, List.count_singleton]
    by_cases he : pc = a
    · subst he
      simp [hroom, hpinned]
    · simp [he]

/-- A visit takes the room of the entries that it compiles. -/
theorem room_visit (c : Control) (mem : Memory) (pc a : UInt64) :
    (c.visitCalls mem pc).count a + (c.visit mem pc).2.room a ≤ c.room a := by
  cases hjit : c.settings.jit with
  | false => simp [visit, visitCalls, hjit]
  | true =>
    have hready : (c.drain.due? pc).toList.count a + (c.ready mem pc).room a ≤ c.room a :=
      Nat.le_trans (room_submitDeferred ..) (room_drain c a)
    rcases visit_cases hjit mem pc with ⟨-, hvisit, hcalls⟩ | ⟨hits, pinned, hentry, hvisit, hcalls⟩
    · rw [hvisit, hcalls]
      exact hready
    · have hcount := room_countVisit hentry mem a
      rw [hvisit, hcalls, List.count_append]
      omega

/-! ### Moves -/

/-- What can happen to the control and its worker. -/
inductive Move where
  /-- An action. -/
  | act (action : Action)
  /-- Whatever results wait to be received, in whatever order. -/
  | arrive (finished : List Compiled)

/-- The control after a move. -/
def move (c : Control) : Move → Control
  | .act action => c.perform action
  | .arrive finished => { c with worker := c.worker.map fun w => { w with finished } }

/-- The control after a list of moves. -/
def moves (c : Control) (l : List Move) : Control := l.foldl move c

/-- The entries that are compiled in a move. -/
def callsOf (c : Control) : Move → List UInt64
  | .act (.visit mem pc) => c.visitCalls mem pc
  | _ => []

/-- The entries that are compiled in a list of moves, in order. -/
def calls (c : Control) : List Move → List UInt64
  | [] => []
  | move :: rest => c.callsOf move ++ (c.move move).calls rest

/-- The move is an invalidation that takes `a` out of the table. -/
def Removes (c : Control) (a : UInt64) : Move → Prop
  | .act action =>
    action.isInvalidation = true ∧ c.blocks[a]? ≠ none ∧ (c.perform action).blocks[a]? = none
  | .arrive _ => False

/-- None of the moves takes `a` out of the table. -/
def Spares (a : UInt64) : Control → List Move → Prop
  | _, [] => True
  | c, move :: rest => ¬ c.Removes a move ∧ Spares a (c.move move) rest

theorem moves_append (c : Control) (l l' : List Move) :
    c.moves (l ++ l') = (c.moves l).moves l' := List.foldl_append

theorem calls_append (c : Control) (l l' : List Move) :
    c.calls (l ++ l') = c.calls l ++ (c.moves l).calls l' := by
  induction l generalizing c with
  | nil => rfl
  | cons move rest ih =>
    rw [List.cons_append, calls, calls, ih, List.append_assoc]
    rfl

/-- An invalidation that does not remove the entry leaves it as it is. -/
theorem getElem?_of_not_removes {action : Action} (hinvalidation : action.isInvalidation = true)
    (h : ¬ c.Removes a (.act action)) : (c.perform action).blocks[a]? = c.blocks[a]? := by
  have hkept : c.blocks[a]? = none ∨ (c.perform action).blocks[a]? ≠ none := by
    by_contra hnot
    rw [not_or, not_not] at hnot
    exact h ⟨hinvalidation, hnot.1, hnot.2⟩
  cases action with
  | invalidate address =>
    have hfilter : ((c.perform (.invalidate address)).blocks[a]?) =
        c.blocks[a]?.filter (Entry.survives address a) := getElem?_invalidate ..
    cases hb : c.blocks[a]? with
    | none => rw [hfilter, hb, Option.filter_none]
    | some entry =>
      rw [hfilter, hb] at hkept ⊢
      rw [Option.filter_some]
      split
      · rfl
      · next hdropped => simp [Option.filter_some, hdropped] at hkept
  | invalidateAll =>
    have hempty : (c.perform .invalidateAll).blocks[a]? = none := by
      simp [perform, invalidateAll, newEpoch]
    rw [hempty] at hkept ⊢
    exact (hkept.resolve_right fun hne => hne rfl).symm
  | _ => cases hinvalidation

/-- **A move takes the room of the entries that it compiles**, and makes none. -/
theorem count_callsOf_le {move : Move} (h : ¬ c.Removes a move) :
    (c.callsOf move).count a + (c.move move).room a ≤ c.room a := by
  cases move with
  | arrive finished => exact Nat.le_of_eq (Nat.zero_add _)
  | act action =>
    cases action with
    | visit mem pc => exact room_visit c mem pc a
    | drain => exact Nat.zero_add _ ▸ room_drain c a
    | await => exact Nat.zero_add _ ▸ room_await c a
    | work | note => exact Nat.le_of_eq (Nat.zero_add _)
    | invalidate | invalidateAll =>
      refine Nat.le_of_eq ((Nat.zero_add _).trans ?_)
      exact room_congr (getElem?_of_not_removes rfl h)

/-- **An entry that is not removed is compiled at most once**, and not at all if it is closed. -/
theorem count_calls_le {l : List Move} (h : Spares a c l) :
    (c.calls l).count a + (c.moves l).room a ≤ c.room a := by
  induction l generalizing c with
  | nil => exact Nat.le_of_eq (Nat.zero_add _)
  | cons move rest ih =>
    have hstep := count_callsOf_le h.1
    have hrest : ((c.move move).calls rest).count a + (c.moves (move :: rest)).room a ≤
        (c.move move).room a := ih h.2
    rw [calls, List.count_append]
    omega

end Control

namespace Engine

open Control (Move)

/-! ### Runs of an engine -/

/-- What happens to an engine: a turn, or the arrival of results. -/
inductive Happening where
  /-- A turn. -/
  | turn (turn : Turn)
  /-- Whatever results wait to be received, in whatever order. -/
  | arrive (finished : List Compiled)

/-- The engine after a happening. -/
def happen (e : Engine) : Happening → Engine
  | .turn turn => e.turn turn
  | .arrive finished => { e with control := e.control.move (.arrive finished) }

/-- The engine after a list of happenings. -/
def live (e : Engine) (l : List Happening) : Engine := l.foldl happen e

/-- The moves of a happening. -/
def movesOf (e : Engine) : Happening → List Move
  | .turn turn => (e.actions turn).map .act
  | .arrive finished => [.arrive finished]

/-- The moves of a list of happenings. -/
def story (e : Engine) : List Happening → List Move
  | [] => []
  | h :: rest => e.movesOf h ++ (e.happen h).story rest

variable {m : Machine} {c : Control} {e : Engine}

theorem moves_map_act (c : Control) (actions : List Control.Action) :
    c.moves (actions.map .act) = c.after actions := List.foldl_map

theorem control_happen (e : Engine) (h : Happening) :
    (e.happen h).control = e.control.moves (e.movesOf h) := by
  cases h with
  | arrive finished => rfl
  | turn turn =>
    rw [movesOf, moves_map_act]
    exact control_turn e turn

/-- **What happens to an engine is a list of moves.** -/
theorem control_live (e : Engine) (l : List Happening) :
    (e.live l).control = e.control.moves (e.story l) := by
  induction l generalizing e with
  | nil => rfl
  | cons h rest ih =>
    rw [story, Control.moves_append, ← control_happen]
    exact ih (e.happen h)

/-! ### The count of compilations -/

theorem compilations_raise (m : Machine) (c : Control) (trap : Trap) :
    (raise ⟨m, c⟩ trap).1.control.stats.compilations = c.stats.compilations := by
  unfold raise
  dsimp only
  split <;> rfl

theorem compilations_interpretOne (m : Machine) (c : Control) :
    (interpretOne ⟨m, c⟩).1.control.stats.compilations = c.stats.compilations := by
  have hretire (flush endsBlock : Bool) :
      (retire c flush endsBlock).stats.compilations = c.stats.compilations := by
    unfold retire
    cases flush <;> simp only [Bool.false_eq_true, if_false, if_true] <;> split <;> rfl
  unfold interpretOne
  dsimp only
  split
  · exact compilations_raise ..
  · split
    · exact compilations_raise ..
    · exact hretire ..

theorem compilations_runCompiled (m : Machine) (c : Control) (block : Block) :
    (runCompiled ⟨m, c⟩ block).1.control.stats.compilations = c.stats.compilations := by
  unfold runCompiled
  dsimp only
  split
  · exact compilations_raise ..
  · cases (block.run m).2.flush <;> rfl

/-- The moves of a step at a block entry begin with its visit. -/
theorem stepActions_of_atBlockEntry (hh : e.machine.cpu.halted = false)
    (ha : e.control.atBlockEntry = true) :
    e.stepActions = .note e.control.stats false 0 ::
      .visit e.machine.mem e.machine.cpu.pc ::
        (flushActions e.stepFlushes ++ [noteOf e.step.1.control]) := by
  simp [stepActions, visitActions, hh, ha]

theorem calls_end (c c' : Control) (flush : Bool) :
    c.calls ((flushActions flush ++ [noteOf c']).map .act) = [] := by
  cases flush <;> rfl

theorem compilations_step (e : Engine) : e.step.1.control.stats.compilations =
    e.control.stats.compilations + (e.control.calls (e.stepActions.map .act)).length := by
  obtain ⟨m, c⟩ := e
  cases hh : m.cpu.halted with
  | true => simp [step, stepActions, hh, Control.calls]
  | false =>
    cases ha : c.atBlockEntry with
    | false =>
      have hactions : stepActions ⟨m, c⟩ =
          flushActions (stepFlushes ⟨m, c⟩) ++ [noteOf (step ⟨m, c⟩).1.control] := by
        simp [stepActions, visitActions, hh, ha]
      rw [hactions, calls_end, step_of_not_atBlockEntry hh ha]
      exact compilations_interpretOne m c
    | true =>
      rcases hv : Control.visit { c with atBlockEntry := false, runLength := 0 } m.mem m.cpu.pc with
        ⟨block?, c'⟩
      have hcount := Control.compilations_visit { c with atBlockEntry := false, runLength := 0 }
        m.mem m.cpu.pc
      have hcalls : c.calls ((stepActions ⟨m, c⟩).map .act) =
          Control.visitCalls { c with atBlockEntry := false, runLength := 0 } m.mem m.cpu.pc := by
        rw [stepActions_of_atBlockEntry hh ha, List.map_cons, List.map_cons, Control.calls,
          Control.calls, calls_end, List.append_nil]
        rfl
      rw [hcalls, ← hcount, hv, step_of_visit hh ha hv]
      cases block? with
      | none => exact compilations_interpretOne m c'
      | some block => exact compilations_runCompiled m c' block

theorem compilations_happen (e : Engine) (h : Happening) :
    (e.happen h).control.stats.compilations =
      e.control.stats.compilations + (e.control.calls (e.movesOf h)).length := by
  cases h with
  | arrive finished => rfl
  | turn turn =>
    cases turn with
    | drain => exact Control.compilations_drain e.control
    | event event =>
      cases event with
      | step => exact compilations_step e
      | await => exact Control.compilations_await e.control
      | _ => rfl

/-- **The engine counts the calls of the compiler.** -/
theorem compilations_live (e : Engine) (l : List Happening) :
    (e.live l).control.stats.compilations =
      e.control.stats.compilations + (e.control.calls (e.story l)).length := by
  induction l generalizing e with
  | nil => rfl
  | cons h rest ih =>
    have hrest : (e.live (h :: rest)).control.stats.compilations = _ := ih (e.happen h)
    rw [hrest, compilations_happen, story, Control.calls_append, List.length_append,
      ← control_happen, Nat.add_assoc]

/-! ### Visits are made by steps -/

/-- How a step goes on after its visit: with the block that was found, or by interpreting. -/
def goOn (m : Machine) (found : Option Block × Control) : Engine × Option Exit :=
  found.1.elim (interpretOne ⟨m, found.2⟩) (runCompiled ⟨m, found.2⟩)

/-- After the moves `before`, a step of the run begins at `a`, and its visit is the next move. -/
structure StepsAt (e : Engine) (l : List Happening) (before : List Move) (mem : Memory)
    (a : UInt64) (e₁ : Engine) : Prop where
  /-- The engine takes a step there. -/
  reached : ∃ l₁ l₂, l = l₁ ++ .turn (.event .step) :: l₂ ∧ e₁ = e.live l₁ ∧
    before = e.story l₁ ++ [.act (.note e₁.control.stats false 0)]
  /-- The memory at the visit. -/
  memory : e₁.machine.mem = mem
  /-- The block entry. -/
  pc : e₁.machine.cpu.pc = a
  /-- The step goes on with what the visit finds. -/
  step : e₁.step = goOn e₁.machine ((e.control.moves before).visit mem a)

/-- The end of a step holds no visit. -/
theorem end_ne_visit (c : Control) (flush : Bool) (before rest : List Move) (mem : Memory)
    (a : UInt64) :
    (flushActions flush ++ [noteOf c]).map .act ≠ before ++ .act (.visit mem a) :: rest := by
  intro h
  have hmem : Move.act (.visit mem a) ∈ (flushActions flush ++ [noteOf c]).map .act := by
    rw [h]
    exact List.mem_append_right _ List.mem_cons_self
  cases flush <;> simp [flushActions, noteOf] at hmem

theorem stepsAt_of_stepActions {mem : Memory} {a : UInt64} {before rest : List Move}
    (h : e.stepActions.map .act = before ++ .act (.visit mem a) :: rest) (l : List Happening) :
    StepsAt e (.turn (.event .step) :: l) before mem a e := by
  cases hh : e.machine.cpu.halted with
  | true => simp [stepActions, hh] at h
  | false =>
    cases ha : e.control.atBlockEntry with
    | false =>
      have hactions : e.stepActions = flushActions e.stepFlushes ++ [noteOf e.step.1.control] := by
        simp [stepActions, visitActions, hh, ha]
      rw [hactions] at h
      exact absurd h (end_ne_visit _ _ _ _ _ _)
    | true =>
      rw [stepActions_of_atBlockEntry hh ha, List.map_cons, List.map_cons] at h
      -- The visit is the second move: the first is a note, and the last ones are not visits.
      cases before with
      | nil => cases h
      | cons first before =>
        obtain ⟨rfl, htail⟩ := List.cons.inj h
        cases before with
        | nil =>
          obtain ⟨hmove, -⟩ := List.cons.inj htail
          cases hmove
          refine ⟨⟨[], l, rfl, rfl, rfl⟩, rfl, rfl, ?_⟩
          exact step_of_visit hh ha rfl
        | cons second before =>
          obtain ⟨-, hend⟩ := List.cons.inj htail
          exact absurd hend (end_ne_visit _ _ _ _ _ _)

theorem stepsAt_of_movesOf {mem : Memory} {a : UInt64} {before rest : List Move} {h : Happening}
    (hmoves : e.movesOf h = before ++ .act (.visit mem a) :: rest) (l : List Happening) :
    StepsAt e (h :: l) before mem a e := by
  have hmem : Move.act (.visit mem a) ∈ e.movesOf h :=
    hmoves ▸ List.mem_append_right _ List.mem_cons_self
  cases h with
  | arrive finished => simp [movesOf] at hmem
  | turn turn =>
    cases turn with
    | drain => simp [movesOf, actions] at hmem
    | event event =>
      cases event with
      | step => exact stepsAt_of_stepActions hmoves l
      | _ => simp [movesOf, actions] at hmem

/-- **Every visit is made by a step**, which goes on with what the visit finds. -/
theorem exists_stepsAt {l : List Happening} {before rest : List Move} {mem : Memory} {a : UInt64}
    (h : e.story l = before ++ .act (.visit mem a) :: rest) :
    ∃ e₁, StepsAt e l before mem a e₁ := by
  induction l generalizing e before with
  | nil => simp [story] at h
  | cons first l ih =>
    have hlater (before' : List Move) (hbefore : before = e.movesOf first ++ before')
        (hrest : (e.happen first).story l = before' ++ .act (.visit mem a) :: rest) :
        ∃ e₁, StepsAt e (first :: l) before mem a e₁ := by
      obtain ⟨e₁, ⟨l₁, l₂, rfl, rfl, rfl⟩, hmem, hpc, hstep⟩ := ih hrest
      refine ⟨_, ⟨first :: l₁, l₂, rfl, rfl, ?_⟩, hmem, hpc, ?_⟩
      · rw [hbefore, story, List.append_assoc]
        rfl
      · rw [hbefore, Control.moves_append, ← control_happen]
        exact hstep
    rcases List.append_eq_append_iff.1 h with ⟨before', rfl, hrest⟩ | ⟨moves, hmoves, hrest⟩
    · exact hlater before' rfl hrest
    · cases moves with
      | nil => exact hlater [] (by simp [hmoves]) hrest.symm
      | cons move moves =>
        obtain ⟨rfl, -⟩ := List.cons.inj hrest
        exact ⟨e, stepsAt_of_movesOf hmoves l⟩

end Engine

end AlphaMachine
