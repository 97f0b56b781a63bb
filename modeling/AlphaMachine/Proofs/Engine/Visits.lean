import AlphaMachine.Proofs.Engine.Compilations

/-!
# Visits of a block entry

Without a worker, a visit of a block entry does one of four things (`Control.Visited`).  It is
counted, it compiles the entry because the count has reached the threshold, it leaves an entry
pinned, or it finds what there is.  Along a period in which the entry is not removed, these come in
this order:

* `Control.Alone.settled` : once the outcome of the compilation is known, it stays;
* `Control.Alone.counting` : before, the count goes up by one at each visit, and the compiler is
  called when it reaches the threshold.

`Engine.compiled_once` puts this together with the bound on the number of calls, which also holds
with a worker.
-/

namespace AlphaMachine

namespace Control

variable {c : Control} {mem : Memory} {pc a : UInt64} {hits v : Nat} {outcome : Option Block}

/-! ### Compiling without a worker -/

/-- The number of visits that makes an entry hot. -/
def threshold (settings : Settings) : Nat := max 1 settings.hotThreshold.toNat

theorem threshold_le (settings : Settings) : threshold settings ≤ Entry.maxHits := by
  have hlt := settings.hotThreshold.toNat_lt
  simp only [threshold, Entry.maxHits, UInt32.size]
  omega

/-- The block that is compiled at `pc`, unless its words cannot be fetched or compiled. -/
def compilesTo (settings : Settings) (mem : Memory) (pc : UInt64) : Option Block :=
  (fetchBlock mem settings.maxBlockLength.toNat pc).toOption.bind fun words =>
    (Block.compile pc words).toOption

theorem compile_of_ok_alone {words : List UInt32} (hw : c.worker = none)
    (h : fetchBlock mem c.settings.maxBlockLength.toNat pc = .ok words) :
    c.compile mem pc = (c.begun pc).install pc (Block.compile pc words) := by
  unfold compile
  dsimp only
  split
  · next fault hfault => cases hfault.symm.trans h
  · next words' hwords =>
    cases hwords.symm.trans h
    split
    · next w hsome => cases hsome.symm.trans hw
    · rfl

theorem outcome?_compile (hw : c.worker = none) (mem : Memory) (pc : UInt64) :
    (c.compile mem pc).outcome? pc = some (compilesTo c.settings mem pc) := by
  cases hfetch : fetchBlock mem c.settings.maxBlockLength.toNat pc with
  | error fault =>
    rw [compile_of_error hfetch, fail, outcome?_setEntry, if_pos rfl, compilesTo, hfetch]
    rfl
  | ok words =>
    rw [compile_of_ok_alone hw hfetch, outcome?_install, if_pos rfl, compilesTo, hfetch]
    rfl

/-- Compiling inline leaves no trace but the entry and the counts. -/
theorem compile_alone (hw : c.worker = none) (mem : Memory) (pc : UInt64) :
    (c.compile mem pc).worker = none ∧ (c.compile mem pc).deferred = c.deferred ∧
      (c.compile mem pc).settings = c.settings := by
  cases hfetch : fetchBlock mem c.settings.maxBlockLength.toNat pc with
  | error fault =>
    rw [compile_of_error hfetch]
    exact ⟨hw, rfl, rfl⟩
  | ok words =>
    rw [compile_of_ok_alone hw hfetch]
    cases Block.compile pc words <;> exact ⟨hw, rfl, rfl⟩

/-! ### Visits without a worker -/

/-- The engine has no worker, and entries that wait have not had visits enough. -/
structure Alone (c : Control) : Prop where
  /-- There is no worker. -/
  worker : c.worker = none
  /-- Nothing is deferred. -/
  deferred : c.deferred = none
  /-- Hot entries are compiled. -/
  jit : c.settings.jit = true
  /-- An entry that has had its visits is not waiting any more. -/
  waiting : ∀ {pc : UInt64} {hits : Nat}, c.blocks[pc]? = some (.interpreting hits false) →
    hits < threshold c.settings

/-- What a visit of `pc` makes of the control, and the entries that it compiles. -/
inductive Visited (c : Control) (mem : Memory) (pc : UInt64) : Control → List UInt64 → Prop where
  /-- The visit is counted. -/
  | counted {hits : Nat} (h : c.blocks[pc]?.getD .unvisited = .interpreting hits false)
      (hlt : hits + 1 < threshold c.settings) :
      Visited c mem pc (c.setEntry pc (.interpreting (hits + 1) false)) []
  /-- The visit makes the entry hot. -/
  | compiled {hits : Nat} (h : c.blocks[pc]?.getD .unvisited = .interpreting hits false)
      (hle : threshold c.settings ≤ hits + 1) :
      Visited c mem pc
        ((c.setEntry pc (.interpreting (min (hits + 1) Entry.maxHits) false)).compile mem pc) [pc]
  /-- The entry is pinned. -/
  | pinned {hits : Nat} (h : c.blocks[pc]?.getD .unvisited = .interpreting hits true) :
      Visited c mem pc (c.setEntry pc (.interpreting (min (hits + 1) Entry.maxHits) true)) []
  /-- The entry is compiled. -/
  | found (h : (c.blocks[pc]?.getD .unvisited).isInterpreting = false) : Visited c mem pc c []

theorem Alone.ready_eq (h : c.Alone) (mem : Memory) (pc : UInt64) : c.ready mem pc = c := by
  simp only [ready, drain, submitDeferred, h.worker, h.deferred]

theorem Alone.due?_eq (h : c.Alone) (pc : UInt64) : c.drain.due? pc = none := by
  simp only [due?, drain, h.worker, h.deferred, Option.filter_none]

theorem Alone.isHot_iff (h : c.Alone) (hits : Nat) (pinned : Bool) :
    c.isHot hits pinned = true ↔ pinned = false ∧ threshold c.settings ≤ hits + 1 := by
  have hle := threshold_le c.settings
  simp only [isHot, h.worker, Option.isNone_none, Bool.and_true, Bool.not_eq_true',
    Bool.or_eq_false_iff, decide_eq_false_iff_not]
  simp only [threshold] at hle ⊢
  refine and_congr_right fun _ => ?_
  omega

theorem Alone.countVisit_of_not_hot (h : c.Alone) {pinned : Bool}
    (hhot : c.isHot hits pinned = false) (mem : Memory) (pc : UInt64) :
    c.countVisit mem pc hits pinned =
      c.setEntry pc (.interpreting (min (hits + 1) Entry.maxHits) pinned) := by
  simp only [isHot, h.worker, Option.isNone_none, Bool.and_true, Bool.not_eq_false'] at hhot
  exact if_pos hhot

/-- **A visit does one of the four things.** -/
theorem Alone.visited (h : c.Alone) (mem : Memory) (pc : UInt64) :
    c.Visited mem pc (c.visit mem pc).2 (c.visitCalls mem pc) := by
  rcases visit_cases h.jit mem pc with
      ⟨hentry, hvisit, hcalls⟩ | ⟨hits, pinned, hentry, hvisit, hcalls⟩ <;>
    rw [h.ready_eq] at hentry hvisit <;>
    rw [h.due?_eq] at hcalls
  · rw [hvisit, hcalls]
    exact .found hentry
  · rw [h.ready_eq] at hcalls
    rw [hvisit, hcalls]
    have hhot := h.isHot_iff hits pinned
    cases pinned with
    | true =>
      have hcold : c.isHot hits true = false := by simpa using hhot
      rw [h.countVisit_of_not_hot hcold, hcold]
      exact .pinned hentry
    | false =>
      by_cases hlt : hits + 1 < threshold c.settings
      · have hcold : c.isHot hits false = false := by
          rw [← Bool.not_eq_true, hhot]
          omega
        have hmin : min (hits + 1) Entry.maxHits = hits + 1 := by
          have hle := threshold_le c.settings
          omega
        rw [h.countVisit_of_not_hot hcold, hcold, hmin]
        exact .counted hentry hlt
      · have hle : threshold c.settings ≤ hits + 1 := Nat.le_of_not_lt hlt
        have htrue : c.isHot hits false = true := hhot.2 ⟨rfl, hle⟩
        rw [countVisit_of_hot htrue, htrue]
        exact .compiled hentry hle

/-- What was counted is forgotten when the entry is compiled. -/
theorem exists_getElem?_setEntry_compile (c : Control) (mem : Memory) (pc : UInt64)
    (entry : Entry) :
    ∃ closed : Entry, closed.isOpen = false ∧ ∀ a,
      ((c.setEntry pc entry).compile mem pc).blocks[a]? =
        if pc = a then some closed else c.blocks[a]? := by
  obtain ⟨closed, hclosed, hblocks⟩ := exists_getElem?_compile (c.setEntry pc entry) mem pc
  refine ⟨closed, hclosed, fun a => ?_⟩
  rw [hblocks, getElem?_setEntry]
  split <;> rfl

/-- A visit changes no other entry. -/
theorem Visited.getElem?_of_ne {c' : Control} {called : List UInt64}
    (h : c.Visited mem pc c' called) (hne : pc ≠ a) : c'.blocks[a]? = c.blocks[a]? := by
  cases h with
  | counted | pinned => rw [getElem?_setEntry, if_neg hne]
  | found => rfl
  | compiled =>
    obtain ⟨closed, -, hblocks⟩ := exists_getElem?_setEntry_compile c mem pc _
    rw [hblocks, if_neg hne]

/-! ### Moves without a worker -/

theorem Visited.alone {c' : Control} {called : List UInt64} (h : c.Visited mem pc c' called)
    (hc : c.Alone) : c'.Alone ∧ c'.settings = c.settings := by
  cases h with
  | found => exact ⟨hc, rfl⟩
  | counted hentry hlt =>
    refine ⟨⟨hc.worker, hc.deferred, hc.jit, fun {pc' hits'} hb => ?_⟩, rfl⟩
    rw [getElem?_setEntry] at hb
    split at hb
    · cases hb
      exact hlt
    · exact hc.waiting hb
  | pinned =>
    refine ⟨⟨hc.worker, hc.deferred, hc.jit, fun {pc' hits'} hb => ?_⟩, rfl⟩
    rw [getElem?_setEntry] at hb
    split at hb
    · cases hb
    · exact hc.waiting hb
  | @compiled hits hentry hle =>
    obtain ⟨hworker, hdeferred, hsettings⟩ := compile_alone
      (c := c.setEntry pc (.interpreting (min (hits + 1) Entry.maxHits) false)) hc.worker mem pc
    obtain ⟨closed, hclosed, hblocks⟩ := exists_getElem?_setEntry_compile c mem pc _
    refine ⟨⟨hworker, hdeferred.trans hc.deferred, hsettings ▸ hc.jit, fun {pc' hits'} hb => ?_⟩,
      hsettings⟩
    rw [hblocks] at hb
    split at hb
    · cases hb
      cases hclosed
    · exact hsettings ▸ hc.waiting hb

theorem Alone.move_drain (h : c.Alone) : c.move (.act .drain) = c := by
  simp only [Control.move, perform, drain, h.worker]

theorem Alone.move_await (h : c.Alone) : c.move (.act .await) = c := by
  simp only [Control.move, perform, await, h.worker]

theorem Alone.move (h : c.Alone) (move : Move) :
    (c.move move).Alone ∧ (c.move move).settings = c.settings := by
  cases move with
  | arrive finished =>
    refine ⟨⟨?_, h.deferred, h.jit, h.waiting⟩, rfl⟩
    simp only [Control.move, h.worker, Option.map_none]
  | act action =>
    cases action with
    | visit mem pc => exact (h.visited mem pc).alone h
    | drain =>
      rw [h.move_drain]
      exact ⟨h, rfl⟩
    | await =>
      rw [h.move_await]
      exact ⟨h, rfl⟩
    | work =>
      refine ⟨⟨?_, h.deferred, h.jit, h.waiting⟩, rfl⟩
      simp only [Control.move, perform, work, h.worker, Option.map_none]
    | invalidate address =>
      refine ⟨⟨h.worker, rfl, h.jit, fun {pc hits} hb => ?_⟩, rfl⟩
      have hfilter := (getElem?_invalidate c address pc).symm.trans hb
      exact h.waiting (Option.filter_eq_some_iff.1 hfilter).1
    | invalidateAll =>
      refine ⟨⟨h.worker, rfl, h.jit, fun {pc hits} hb => ?_⟩, rfl⟩
      simp [Control.move, perform, invalidateAll, newEpoch] at hb
    | note stats atBlockEntry runLength => exact ⟨⟨h.worker, h.deferred, h.jit, h.waiting⟩, rfl⟩

/-- The move is a visit of `a`. -/
def Move.visits (a : UInt64) : Move → Bool
  | .act (.visit _ pc) => pc = a
  | _ => false

theorem Move.visits_visit (mem : Memory) (a : UInt64) :
    Move.visits a (.act (.visit mem a)) = true := decide_eq_true rfl

theorem Move.of_visits {move : Move} (h : move.visits a = true) :
    ∃ mem, move = .act (.visit mem a) := by
  cases move with
  | arrive finished => cases h
  | act action =>
    cases action with
    | visit mem pc =>
      obtain rfl : pc = a := by simpa [visits] using h
      exact ⟨mem, rfl⟩
    | _ => cases h

/-- The number of visits of `a`. -/
def visits (a : UInt64) (l : List Move) : Nat := l.countP (Move.visits a)

/-- Moves other than visits of `a` leave the entry alone, unless they remove it. -/
theorem Alone.getElem?_move (h : c.Alone) {move : Move} (hspares : ¬ c.Removes a move)
    (hvisits : move.visits a = false) : (c.move move).blocks[a]? = c.blocks[a]? := by
  cases move with
  | arrive finished => rfl
  | act action =>
    cases action with
    | visit mem pc => exact (h.visited mem pc).getElem?_of_ne (by simpa [Move.visits] using hvisits)
    | drain => rw [h.move_drain]
    | await => rw [h.move_await]
    | work | note => rfl
    | invalidate | invalidateAll => exact getElem?_of_not_removes rfl hspares

/-! ### Runs without a worker -/

theorem Spares.left {p q : List Move} (h : Spares a c (p ++ q)) : Spares a c p := by
  induction p generalizing c with
  | nil => trivial
  | cons move rest ih => exact ⟨h.1, ih h.2⟩

theorem outcome?_of_interpreting {pinned : Bool}
    (h : c.blocks[a]?.getD .unvisited = .interpreting hits pinned) :
    c.outcome? a = if pinned then some none else none := by
  unfold outcome?
  cases hb : c.blocks[a]? with
  | none =>
    rw [hb] at h
    cases h
    rfl
  | some entry =>
    rw [hb] at h
    cases h
    cases pinned <;> rfl

theorem Visited.outcome? {c' : Control} {called : List UInt64} (h : c.Visited mem a c' called)
    (ho : c.outcome? a = some outcome) : c'.outcome? a = some outcome := by
  cases h with
  | counted hentry | compiled hentry =>
    rw [outcome?_of_interpreting hentry] at ho
    cases ho
  | pinned hentry =>
    rw [outcome?_of_interpreting hentry] at ho
    rw [outcome?_setEntry, if_pos rfl]
    exact ho
  | found => exact ho

theorem room_of_outcome? (h : c.outcome? a = some outcome) : c.room a = 0 := by
  obtain ⟨entry, hb, he⟩ := Option.bind_eq_some_iff.1 h
  -- Only an open entry has room, and of an open one the outcome is not known.
  have hclosed : entry.isOpen = false := by
    cases entry with
    | interpreting hits pinned =>
      cases pinned with
      | false => cases he
      | true => rfl
    | compiling => rfl
    | compiled block => rfl
  simp [room, hb, hclosed]

/-- A known outcome stays known. -/
theorem Alone.outcome?_move (h : c.Alone) {move : Move} (hspares : ¬ c.Removes a move)
    (ho : c.outcome? a = some outcome) : (c.move move).outcome? a = some outcome := by
  cases hvisits : move.visits a with
  | false => exact (congrArg (·.bind Entry.outcome?) (h.getElem?_move hspares hvisits)).trans ho
  | true =>
    obtain ⟨mem, rfl⟩ := Move.of_visits hvisits
    exact (h.visited mem a).outcome? ho

/-- **Once the outcome is known it stays**, and the compiler is not called again. -/
theorem Alone.settled (h : c.Alone) {l : List Move} (hspares : Spares a c l)
    (ho : c.outcome? a = some outcome) :
    (c.calls l).count a = 0 ∧ (c.moves l).outcome? a = some outcome := by
  constructor
  · have hle := count_calls_le hspares
    rw [room_of_outcome? ho] at hle
    omega
  · induction l generalizing c with
    | nil => exact ho
    | cons move rest ih => exact ih (h.move move).1 hspares.2 (h.outcome?_move hspares.1 ho)

/-! ### Counting visits -/

/-- What is known after the moves `p`, before which `v` visits of `a` had been counted. -/
structure Progress (c : Control) (a : UInt64) (v : Nat) (outcome : Option Block) (p : List Move) :
    Prop where
  /-- There is one call, once the threshold is reached. -/
  calls : (c.calls p).count a = if threshold c.settings ≤ v + visits a p then 1 else 0
  /-- The outcome is known from then on. -/
  known : threshold c.settings ≤ v + visits a p → (c.moves p).outcome? a = some outcome

/-- The compiler is called for `a` when its visits reach the threshold; `outcome` comes of it. -/
structure Counts (c : Control) (a : UInt64) (v : Nat) (outcome : Option Block) (l : List Move) :
    Prop where
  /-- It is called at the right time. -/
  progress : ∀ p q, l = p ++ q → c.Progress a v outcome p
  /-- It is called with the memory of the visit that reaches the threshold. -/
  compiled : ∀ p mem q, l = p ++ .act (.visit mem a) :: q →
    v + visits a p + 1 = threshold c.settings → outcome = compilesTo c.settings mem a

theorem visits_cons (a : UInt64) (move : Move) (l : List Move) :
    visits a (move :: l) = visits a l + if move.visits a then 1 else 0 := List.countP_cons

theorem progress_nil (hv : v < threshold c.settings) (outcome : Option Block) :
    c.Progress a v outcome [] := by
  have hcold : ¬ threshold c.settings ≤ v + visits a [] := Nat.not_le_of_lt hv
  exact ⟨(if_neg hcold).symm, fun hle => absurd hle hcold⟩

theorem counts_nil (hv : v < threshold c.settings) (outcome : Option Block) :
    c.Counts a v outcome [] where
  progress p q hl := by
    obtain ⟨rfl, -⟩ := List.append_eq_nil_iff.1 hl.symm
    exact progress_nil hv outcome
  compiled p mem q hl := by simp at hl

/-- One more move at the beginning, in which the compiler is not called for `a`. -/
theorem Progress.cons {move : Move} {p : List Move}
    (hsettings : (c.move move).settings = c.settings) (hcalls : (c.callsOf move).count a = 0)
    (h : (c.move move).Progress a (v + if move.visits a then 1 else 0) outcome p) :
    c.Progress a v outcome (move :: p) := by
  have hvisits : v + visits a (move :: p) = (v + if move.visits a then 1 else 0) + visits a p := by
    rw [visits_cons]
    omega
  refine ⟨?_, ?_⟩
  · rw [hvisits, Control.calls, List.count_append, hcalls, Nat.zero_add, h.calls, hsettings]
  · intro hle
    rw [hvisits, ← hsettings] at hle
    exact h.known hle

theorem Counts.cons {move : Move} {l : List Move}
    (hsettings : (c.move move).settings = c.settings) (hcalls : (c.callsOf move).count a = 0)
    (hv : v + (if move.visits a then 1 else 0) < threshold c.settings)
    (h : (c.move move).Counts a (v + if move.visits a then 1 else 0) outcome l) :
    c.Counts a v outcome (move :: l) where
  progress p q hl := by
    cases p with
    | nil => exact progress_nil (Nat.lt_of_le_of_lt (Nat.le_add_right _ _) hv) outcome
    | cons first p =>
      obtain ⟨rfl, hrest⟩ := List.cons.inj hl
      exact (h.progress p q hrest).cons hsettings hcalls
  compiled p mem q hl hle := by
    cases p with
    | nil =>
      -- The first move would be the visit that reaches the threshold, but it is not reached yet.
      obtain ⟨rfl, -⟩ := List.cons.inj hl
      rw [Move.visits_visit, if_pos rfl] at hv
      exact absurd hle (Nat.ne_of_lt hv)
    | cons first p =>
      obtain ⟨rfl, hrest⟩ := List.cons.inj hl
      rw [← hsettings]
      refine h.compiled p mem q hrest ?_
      rw [hsettings, ← hle, visits_cons]
      omega

/-- A visit of an entry that waits is counted, or it compiles the entry. -/
theorem Visited.of_waiting {c' : Control} {called : List UInt64} (h : c.Visited mem a c' called)
    (hw : c.worker = none)
    (hentry : c.blocks[a]?.getD .unvisited = .interpreting v false) :
    v + 1 < threshold c.settings ∧ c' = c.setEntry a (.interpreting (v + 1) false) ∧ called = [] ∨
      threshold c.settings ≤ v + 1 ∧ c'.outcome? a = some (compilesTo c.settings mem a) ∧
        called = [a] := by
  cases h with
  | counted hsame hlt =>
    cases hsame.symm.trans hentry
    exact .inl ⟨hlt, rfl, rfl⟩
  | compiled hsame hle =>
    cases hsame.symm.trans hentry
    exact .inr ⟨hle, outcome?_compile (c := c.setEntry a _) hw mem a, rfl⟩
  | pinned hsame => cases hsame.symm.trans hentry
  | found hfound =>
    rw [hentry] at hfound
    cases hfound

/-- The visit that reaches the threshold settles what is found from there on. -/
theorem Alone.counts_of_hot (h : c.Alone) {rest : List Move}
    (hspares : Spares a c (.act (.visit mem a) :: rest)) (hv : v < threshold c.settings)
    (hle : threshold c.settings ≤ v + 1)
    (hout : (c.visit mem a).2.outcome? a = some (compilesTo c.settings mem a))
    (hcalls : c.visitCalls mem a = [a]) :
    c.Counts a v (compilesTo c.settings mem a) (.act (.visit mem a) :: rest) where
  progress p q hl := by
    cases p with
    | nil => exact progress_nil hv _
    | cons first p =>
      obtain ⟨rfl, rfl⟩ := List.cons.inj hl
      have hreached : threshold c.settings ≤ v + visits a (.act (.visit mem a) :: p) := by
        rw [visits_cons, Move.visits_visit, if_pos rfl]
        omega
      obtain ⟨hnone, hknown⟩ := (h.visited mem a).alone h |>.1.settled hspares.2.left hout
      refine ⟨?_, fun _ => hknown⟩
      rw [if_pos hreached, Control.calls, List.count_append, callsOf, hcalls,
        List.count_singleton_self]
      exact congrArg (1 + ·) hnone
  compiled p mem' q hl hreached := by
    cases p with
    | nil =>
      obtain ⟨hmove, -⟩ := List.cons.inj hl
      cases hmove
      rfl
    | cons first p =>
      -- A later visit is beyond the threshold.
      obtain ⟨rfl, -⟩ := List.cons.inj hl
      rw [visits_cons, Move.visits_visit, if_pos rfl] at hreached
      omega

/-- **The compiler is called when the count of visits reaches the threshold**, once, and what comes
of it is found by this visit and all later ones. -/
theorem Alone.counting (h : c.Alone) {l : List Move} (hspares : Spares a c l)
    (hentry : c.blocks[a]?.getD .unvisited = .interpreting v false)
    (hv : v < threshold c.settings) : ∃ outcome, c.Counts a v outcome l := by
  induction l generalizing c v with
  | nil => exact ⟨none, counts_nil hv none⟩
  | cons move rest ih =>
    obtain ⟨halone, hsettings⟩ := h.move move
    cases hvisits : move.visits a with
    | false =>
      -- The entry stays open, so the move has not used up the room for a call.
      have hkept := h.getElem?_move hspares.1 hvisits
      have hcalls : (c.callsOf move).count a = 0 := by
        have hle := count_callsOf_le hspares.1
        rw [room_congr hkept] at hle
        omega
      obtain ⟨outcome, hcounts⟩ := ih halone hspares.2 (hkept.symm ▸ hentry) (hsettings.symm ▸ hv)
      refine ⟨outcome, .cons hsettings hcalls ?_ ?_⟩ <;> rw [hvisits]
      · exact hv
      · exact hcounts
    | true =>
      obtain ⟨mem, rfl⟩ := Move.of_visits hvisits
      rcases (h.visited mem a).of_waiting h.worker hentry with
        ⟨hlt, hc', hcalls⟩ | ⟨hle, hout, hcalls⟩
      · -- The visit is counted: go on with one more.
        have hnext : (c.move (.act (.visit mem a))).blocks[a]?.getD .unvisited =
            .interpreting (v + 1) false := by
          rw [show c.move (.act (.visit mem a)) = _ from hc', getElem?_setEntry, if_pos rfl]
          rfl
        obtain ⟨outcome, hcounts⟩ := ih halone hspares.2 hnext (hsettings.symm ▸ hlt)
        refine ⟨outcome, .cons hsettings ?_ ?_ ?_⟩
        · rw [show c.callsOf (.act (.visit mem a)) = [] from hcalls]
          rfl
        · rw [hvisits]
          exact hlt
        · rw [hvisits]
          exact hcounts
      · -- The threshold is reached here, and what follows changes nothing.
        exact ⟨_, h.counts_of_hot hspares hv hle hout hcalls⟩

/-! ### What a visit finds -/

/-- A visit finds the block that is in the table when it is over. -/
theorem fst_visit (hjit : c.settings.jit = true) (mem : Memory) (pc : UInt64) :
    (c.visit mem pc).1 = (c.visit mem pc).2.blocks[pc]?.bind Entry.block? := by
  unfold visit
  rw [if_pos hjit]
  dsimp only
  cases hentry : (c.drain.submitDeferred mem pc).blocks[pc]?.getD .unvisited with
  | interpreting hits pinned => rfl
  | compiled block | compiling =>
    -- Such an entry is in the table: one that is absent would count as interpreted.
    cases hb : (c.drain.submitDeferred mem pc).blocks[pc]? with
    | none =>
      rw [hb] at hentry
      cases hentry
    | some entry =>
      rw [hb] at hentry
      cases hentry
      rfl

theorem block?_of_outcome? (h : c.outcome? a = some outcome) :
    c.blocks[a]?.bind Entry.block? = outcome := by
  obtain ⟨entry, hb, he⟩ := Option.bind_eq_some_iff.1 h
  rw [hb]
  cases entry with
  | compiling => cases he
  | compiled block => exact Option.some.inj he
  | interpreting hits pinned =>
    cases pinned with
    | false => cases he
    | true => exact Option.some.inj he

/-- From the threshold on, a visit finds the outcome. -/
theorem Counts.fst_visit {p q l : List Move} (h : c.Counts a v outcome l)
    (hl : l = p ++ .act (.visit mem a) :: q) (hjit : (c.moves p).settings.jit = true)
    (hle : threshold c.settings ≤ v + visits a p + 1) :
    ((c.moves p).visit mem a).1 = outcome := by
  have hvisits : visits a (p ++ [.act (.visit mem a)]) = visits a p + 1 := by
    rw [visits, List.countP_append, List.countP_singleton, Move.visits_visit]
    rfl
  have hknown := (h.progress (p ++ [.act (.visit mem a)]) q (by simp [hl])).known
    (by rw [hvisits]; exact hle)
  rw [moves_append] at hknown
  rw [Control.fst_visit hjit]
  exact block?_of_outcome? hknown

/-! ### Runs from the start -/

theorem Alone.moves (h : c.Alone) (l : List Move) :
    (c.moves l).Alone ∧ (c.moves l).settings = c.settings := by
  induction l generalizing c with
  | nil => exact ⟨h, rfl⟩
  | cons move rest ih =>
    obtain ⟨halone, hsettings⟩ := h.move move
    obtain ⟨hrest, hrest'⟩ := ih halone
    exact ⟨hrest, hrest'.trans hsettings⟩

theorem alone_start {settings : Settings} (hjit : settings.jit = true)
    (hbackground : settings.backgroundCompile = false) : (start settings).Alone where
  worker := by simp [start, hbackground]
  deferred := rfl
  jit := hjit
  waiting h := by simp [start] at h

/-- An entry that waits has not had visits enough, and neither has one that is absent. -/
theorem Alone.lt_threshold (h : c.Alone)
    (hentry : c.blocks[a]?.getD .unvisited = .interpreting v false) :
    v < threshold c.settings := by
  cases hb : c.blocks[a]? with
  | none =>
    rw [hb] at hentry
    cases hentry
    exact Nat.le_max_left 1 _
  | some entry =>
    rw [hb] at hentry
    cases hentry
    exact h.waiting hb

end Control

namespace Engine

open Control (Move)

/-- **Every hot entry is compiled once.**  The run makes the moves of its story, and the count of
compilations is the number of calls of the compiler in it.  In a period in which no invalidation
removes `a` from the table there is at most one call for `a`, whatever results arrive and in
whatever order.

If there is no worker, take `v` to be the number of visits that were counted before the period,
which is zero if `a` is absent.  Then there is one call as soon as the visits have reached the
threshold, and none before.  The visit that reaches it compiles what it finds in memory, and from
this visit on, every step that visits `a` goes on with the outcome: it runs this one block, or
interprets if there is none. -/
theorem compiled_once (mem : Memory) (entry : UInt64) (settings : Settings)
    (hjit : settings.jit = true) (l : List Happening) (a : UInt64) :
    let e := start mem entry settings
    let c := Control.start settings
    (e.live l).control = c.moves (e.story l) ∧
    (e.live l).control.stats.compilations = (c.calls (e.story l)).length ∧
    ∀ before period rest, e.story l = before ++ (period ++ rest) →
      Control.Spares a (c.moves before) period →
      ((c.moves before).calls period).count a ≤ 1 ∧
      (settings.backgroundCompile = false → ∀ v,
        (c.moves before).blocks[a]?.getD .unvisited = .interpreting v false →
        ∃ outcome,
          (∀ p q, period = p ++ q → ((c.moves before).calls p).count a =
            if Control.threshold settings ≤ v + Control.visits a p then 1 else 0) ∧
          ∀ p mem q, period = p ++ .act (.visit mem a) :: q →
            Control.threshold settings ≤ v + Control.visits a p + 1 →
            (v + Control.visits a p + 1 = Control.threshold settings →
              outcome = Control.compilesTo settings mem a) ∧
            ∃ e₁ c₁, StepsAt e l (before ++ p) mem a e₁ ∧
              (c.moves (before ++ p)).visit mem a = (outcome, c₁) ∧
              e₁.step = goOn e₁.machine (outcome, c₁)) := by
  intro e c
  refine ⟨control_live e l, (compilations_live e l).trans (Nat.zero_add _), ?_⟩
  intro before period rest hstory hspares
  refine ⟨?_, ?_⟩
  · have hle := Control.count_calls_le hspares
    have hroom := (c.moves before).room_le_one a
    omega
  · intro hbackground v hentry
    obtain ⟨halone, hsettings⟩ := (Control.alone_start hjit hbackground).moves before
    obtain ⟨outcome, hcounts⟩ := halone.counting hspares hentry (halone.lt_threshold hentry)
    have hthreshold : Control.threshold (c.moves before).settings = Control.threshold settings :=
      congrArg Control.threshold hsettings
    refine ⟨outcome, fun p q hperiod => ?_, fun p mem q hperiod hle => ⟨fun hreached => ?_, ?_⟩⟩
    · rw [(hcounts.progress p q hperiod).calls, hthreshold]
    · rw [hcounts.compiled p mem q hperiod (hreached.trans hthreshold.symm), hsettings]
      rfl
    · have hjit' := ((halone.moves p).1).jit
      have hfound := hcounts.fst_visit hperiod hjit' (hthreshold.symm ▸ hle)
      rw [← Control.moves_append] at hfound
      have hvisit : (c.moves (before ++ p)).visit mem a =
          (outcome, ((c.moves (before ++ p)).visit mem a).2) := Prod.ext hfound rfl
      have hmoves : e.story l = (before ++ p) ++ .act (.visit mem a) :: (q ++ rest) := by
        rw [hstory, hperiod, List.append_assoc, List.append_assoc, List.cons_append]
      obtain ⟨e₁, hsteps⟩ := exists_stepsAt hmoves
      exact ⟨e₁, _, hsteps, hvisit, hsteps.step.trans (congrArg _ hvisit)⟩

/-- Compile at the first visit, without a worker. -/
def hotInline : Settings := { hotThreshold := 1, backgroundCompile := false }

/-- The first step of the first block compiles it. -/
theorem compiled_once_pingPong :
    let first : List Move := [.act (.note {} false 0), .act (.visit pingPong 0x1000)]
    hotInline.jit = true ∧ hotInline.backgroundCompile = false ∧
      (∃ rest, (start pingPong 0x1000 hotInline).story [.turn (.event .step)] = first ++ rest) ∧
      ((Control.start hotInline).calls first).count 0x1000 = 1 := by
  intro first
  obtain ⟨rest, hrest⟩ : ∃ rest, (start pingPong 0x1000 hotInline).story [.turn (.event .step)] =
      first ++ rest := by
    rw [story, movesOf, actions, stepActions_of_atBlockEntry rfl rfl]
    exact ⟨_, rfl⟩
  have hspares : Control.Spares 0x1000 (Control.start hotInline) first := by
    refine ⟨?_, ?_, trivial⟩ <;>
    · rintro ⟨hinvalidation, -⟩
      cases hinvalidation
  obtain ⟨-, -, hperiods⟩ :=
    compiled_once pingPong 0x1000 hotInline rfl [.turn (.event .step)] 0x1000
  obtain ⟨-, halone⟩ := hperiods [] first rest hrest hspares
  have habsent : (Control.start hotInline).blocks[(0x1000 : UInt64)]? = none := by
    simp [Control.start]
  obtain ⟨outcome, hcalls, -⟩ := halone rfl 0 (congrArg (·.getD .unvisited) habsent)
  exact ⟨rfl, rfl, ⟨rest, hrest⟩, (hcalls first [] rfl).trans (if_pos (by decide))⟩

end Engine

end AlphaMachine
