import AlphaMachine.Proofs.Host.Calls
import Mathlib.Data.List.TakeWhile

/-!
# Resolution of placeholders

As placeholders lie within the code and apart from each other, it makes no difference when they are
patched.  An emitter that has resolved some of its placeholders already (`Host.Emitter.Ahead`) stays
level with one that has not, call by call (`Host.Emitter.Ahead.call`), and a resolution makes the
two equal (`Host.Emitter.Ahead.resolve_eq`).  In particular every emitter is ahead of one that has
never resolved anything (`Host.Emitter.exists_ahead_after`), whose bytes are just those appended.

`Host.Emitter.placeholders_resolved` says what comes of any calls in any order.
-/

namespace AlphaMachine

namespace Host

namespace Emitter

/-! ### Patched bytes -/

variable {offset? : Label → Option Nat} {buf : CodeBuffer} {fixups : List Fixup} {e e' : Emitter}
  {label : Label}

/-- Bytes outside of all placeholders stay. -/
theorem getElem?_patchAll {j : Nat} (h : ∀ f ∈ fixups, j < f.offset ∨ f.offset + 4 ≤ j)
    (offset? : Label → Option Nat) (buf : CodeBuffer) :
    (patchAll offset? buf fixups).bytes[j]? = buf.bytes[j]? := by
  refine patchAll_induction (P := fun buf' => buf'.bytes[j]? = buf.bytes[j]?) rfl ?_
  intro buf' f hf target hlabel hbyte
  rw [← hbyte]
  refine Bytes.getElem?_put ?_
  rw [Bytes.length_ofWord]
  exact h f hf

theorem patchAll_congr {offset?' : Label → Option Nat}
    (h : ∀ f ∈ fixups, offset?' f.label = offset? f.label) (buf : CodeBuffer) :
    patchAll offset?' buf fixups = patchAll offset? buf fixups := by
  induction fixups generalizing buf with
  | nil => rfl
  | cons f rest ih =>
    rw [patchAll, List.foldl_cons, h f List.mem_cons_self]
    exact ih (fun g hg => h g (List.mem_cons_of_mem _ hg)) _

/-- It makes no difference whether code is appended before or after patching. -/
theorem patchAll_append_bytes (h : ∀ f ∈ fixups, f.offset + 4 ≤ buf.size)
    (offset? : Label → Option Nat) (bytes : List UInt8) :
    patchAll offset? (buf.append bytes) fixups = (patchAll offset? buf fixups).append bytes := by
  induction fixups generalizing buf with
  | nil => rfl
  | cons f rest ih =>
    have hrest : ∀ g ∈ rest, g.offset + 4 ≤ buf.size := fun g hg => h g (List.mem_cons_of_mem _ hg)
    cases hlabel : offset? f.label with
    | none =>
      simp only [patchAll, List.foldl_cons, hlabel]
      exact ih hrest
    | some target =>
      rw [patchAll_cons hlabel, patchAll_cons hlabel,
        CodeBuffer.patchDword_append (h f List.mem_cons_self)]
      exact ih (by simpa using hrest)

/-- Each placeholder holds its displacement, as no other overlaps it. -/
theorem field_patchAll (hapart : fixups.Pairwise fun f g => f.offset + 4 ≤ g.offset)
    (hwithin : ∀ f ∈ fixups, f.offset + 4 ≤ buf.size) {f : Fixup} (hf : f ∈ fixups) {target : Nat}
    (hlabel : offset? f.label = some target) :
    (patchAll offset? buf fixups).field f.offset = f.displacement target := by
  induction fixups generalizing buf with
  | nil => cases hf
  | cons g rest ih =>
    obtain ⟨hfirst, hrest⟩ := List.pairwise_cons.1 hapart
    rcases List.mem_cons.1 hf with rfl | hf
    · -- All other placeholders come after this one.
      rw [patchAll_cons hlabel]
      refine Eq.trans ?_ (CodeBuffer.field_patchDword (hwithin f List.mem_cons_self) _)
      refine congrArg signedDword (Bytes.slice_congr fun j _ hj => ?_)
      refine getElem?_patchAll (fun g hg => .inl ?_) ..
      have happart := hfirst g hg
      omega
    · have hwithin' : ∀ g ∈ rest, g.offset + 4 ≤ buf.size :=
        fun g hg => hwithin g (List.mem_cons_of_mem _ hg)
      cases hg : offset? g.label with
      | none =>
        rw [patchAll, List.foldl_cons, hg]
        exact ih hrest hwithin' hf
      | some target' =>
        rw [patchAll_cons hg]
        exact ih hrest (by simpa using hwithin') hf

/-! ### Resolving early -/

/-- The second emitter is the first, except that it has patched some of the placeholders. -/
structure Ahead (e e' : Emitter) (done : List Fixup) : Prop where
  /-- What was patched comes first. -/
  fixups : e.fixups.toList = done ++ e'.fixups.toList
  /-- What was patched could be. -/
  bound : ∀ f ∈ done, e.isBound f = true
  /-- The bytes differ in what was patched. -/
  buf : e'.buf = patchAll e.labelOffset? e.buf done
  /-- The labels are the same. -/
  labels : e'.labels = e.labels

theorem Ahead.refl (e : Emitter) : Ahead e e [] where
  fixups := rfl
  bound f hf := by cases hf
  buf := rfl
  labels := rfl

theorem ahead_resolve (e : Emitter) : Ahead e e.resolve.2 e.patched := by
  rw [resolve_eq]
  exact ⟨List.takeWhile_append_dropWhile.symm, fun f hf => List.mem_takeWhile_imp hf, rfl, rfl⟩

variable {done : List Fixup}

theorem Ahead.labelOffset? (h : Ahead e e' done) : e'.labelOffset? = e.labelOffset? := by
  funext label
  rw [Emitter.labelOffset?, Emitter.labelOffset?, h.labels]

theorem Ahead.offset (h : Ahead e e' done) : e'.offset = e.offset := by
  rw [Emitter.offset, Emitter.offset, h.buf, size_patchAll]

/-- **A resolution makes them equal.** -/
theorem Ahead.resolve_eq (h : Ahead e e' done) : e'.resolve = e.resolve := by
  have hbound : e'.isBound = e.isBound := by
    funext f
    rw [isBound, isBound, h.labelOffset?]
  have hpatched : e.patched = done ++ e'.patched := by
    rw [patched, patched, h.fixups, hbound, List.takeWhile_append_of_pos h.bound]
  have hpending : e.pending = e'.pending := by
    rw [pending, pending, h.fixups, hbound, List.dropWhile_append_of_pos h.bound]
  rw [Emitter.resolve_eq, Emitter.resolve_eq, hpatched, hpending, h.labelOffset?, h.labels, h.buf,
    patchAll_append]

/-- Labels may change in the same way, as long as what was bound stays bound. -/
theorem Ahead.withLabels (h : Ahead e e' done) {labels : Array (Option Nat)}
    (hlabels : ∀ f ∈ done, ∀ target, e.labelOffset? f.label = some target →
      labels[f.label]?.join = some target) : Ahead { e with labels } { e' with labels } done := by
  have hsame : ∀ f ∈ done, labels[f.label]?.join = e.labelOffset? f.label := by
    intro f hf
    obtain ⟨target, htarget⟩ := Option.isSome_iff_exists.1 (h.bound f hf)
    rw [hlabels f hf target htarget, htarget]
  refine ⟨h.fixups, fun f hf => ?_, ?_, rfl⟩
  · have hbound := h.bound f hf
    rw [isBound, ← hsame f hf] at hbound
    exact hbound
  · rw [h.buf]
    exact (patchAll_congr hsame e.buf).symm

/-- **The two stay level, call by call.** -/
theorem Ahead.call (h : Ahead e e' done) (hwithin : e.Within) (c : Call) :
    ∃ done', Ahead (e.call c) (e'.call c) done' := by
  have hkept (f : Fixup) (_ : f ∈ done) (target : Nat)
      (hf : e.labelOffset? f.label = some target) : (e.call c).labelOffset? f.label = some target :=
    labelOffset?_call hf c
  cases c with
  -- Only a resolution changes what is patched; after it, both have patched the same.
  | newLabel =>
    have hlabels : e'.newLabel.2 = { e' with labels := e.labels.push none } := by
      rw [newLabel, h.labels]
    refine ⟨done, ?_⟩
    rw [Emitter.call, Emitter.call, hlabels]
    exact h.withLabels hkept
  | bind label =>
    refine ⟨done, ?_⟩
    by_cases hb : e.labels[label]? = some none
    · have hb' : e'.labels[label]? = some none := by rw [h.labels, hb]
      rw [Emitter.call, Emitter.call, bind_of_unbound hb, bind_of_unbound hb', h.labels, h.offset]
      rw [Emitter.call, bind_of_unbound hb] at hkept
      exact h.withLabels hkept
    · have hb' : e'.labels[label]? ≠ some none := by rwa [h.labels]
      rw [(call_bind_of_bound hb).1, (call_bind_of_bound hb').1]
      exact h
  | add code =>
    refine ⟨done, ?_⟩
    rw [Emitter.call, Emitter.call, add_eq, add_eq, h.offset, h.labels]
    refine ⟨?_, h.bound, ?_, rfl⟩
    · simp only [h.fixups, List.append_assoc]
    · have hdone : ∀ f ∈ done, f.offset + 4 ≤ e.buf.size := by
        intro f hf
        refine hwithin f ?_
        rw [h.fixups]
        exact List.mem_append_left _ hf
      rw [h.buf]
      exact (patchAll_append_bytes hdone _ _).symm
  | resolve =>
    refine ⟨[], ?_⟩
    rw [Emitter.call, Emitter.call, h.resolve_eq]
    exact Ahead.refl _

theorem Ahead.after (h : Ahead e e' done) (hwithin : e.Within) (calls : List Call) :
    ∃ done', Ahead (e.after calls) (e'.after calls) done' := by
  induction calls generalizing e e' done with
  | nil => exact ⟨done, h⟩
  | cons c rest ih =>
    obtain ⟨done', h'⟩ := h.call hwithin c
    exact ih h' (hwithin.call c)

/-! ### The emitter that never resolves -/

/-- The calls without any resolution. -/
def unresolved (buf : CodeBuffer) (calls : List Call) (labels : Array (Option Nat)) : Emitter :=
  ⟨buf.append (Call.appended calls), labels, (Call.jumps buf.size calls).toArray⟩

theorem within_unresolved (buf : CodeBuffer) (calls : List Call) (labels : Array (Option Nat)) :
    (unresolved buf calls labels).Within := by
  intro f hf
  rw [unresolved, CodeBuffer.size_append]
  exact (Call.jumps_within hf).2

theorem unresolved_concat (buf : CodeBuffer) (calls : List Call) (labels : Array (Option Nat))
    (c : Call) : unresolved buf (calls ++ [c]) labels =
      ⟨(buf.append (Call.appended calls)).append c.bytes, labels,
        (Call.jumps buf.size calls ++
          c.fixups (buf.append (Call.appended calls)).size).toArray⟩ := by
  rw [unresolved, Call.appended_concat, Call.jumps_concat, CodeBuffer.append_append,
    CodeBuffer.size_append]

/-- Other calls than resolutions go on as before. -/
theorem call_unresolved (buf : CodeBuffer) (calls : List Call) (labels : Array (Option Nat))
    {c : Call} (hc : c ≠ .resolve) :
    (unresolved buf calls labels).call c =
      unresolved buf (calls ++ [c]) ((unresolved buf calls labels).call c).labels := by
  rw [unresolved_concat]
  cases c with
  | resolve => exact absurd rfl hc
  | newLabel => simp [call, newLabel, unresolved, Call.bytes, Call.fixups]
  | add code =>
    rw [call, add_eq]
    rfl
  | bind label =>
    by_cases hb : (unresolved buf calls labels).labels[label]? = some none
    · rw [call, bind_of_unbound hb]
      simp [unresolved, Call.bytes, Call.fixups, Except.toOption]
    · rw [(call_bind_of_bound hb).1]
      simp [unresolved, Call.bytes, Call.fixups]

/-- **Every emitter is ahead of one that has never resolved anything.** -/
theorem exists_ahead_after (buf : CodeBuffer) (calls : List Call) :
    ∃ done, Ahead (unresolved buf calls ((ofBuffer buf).after calls).labels)
      ((ofBuffer buf).after calls) done := by
  induction calls using List.reverseRecOn with
  | nil =>
    have hstart : unresolved buf [] #[] = ofBuffer buf := by
      rw [unresolved, Call.appended, List.flatMap_nil, CodeBuffer.append_nil]
      rfl
    refine ⟨[], ?_⟩
    change Ahead (unresolved buf [] #[]) (ofBuffer buf) []
    rw [hstart]
    exact Ahead.refl _
  | append_singleton calls c ih =>
    obtain ⟨done, h⟩ := ih
    rw [after_concat]
    generalize (ofBuffer buf).after calls = e at h ⊢
    by_cases hc : c = .resolve
    · subst hc
      have hlabels : (e.call .resolve).labels = e.labels := by rw [call, Emitter.resolve_eq]
      have hunresolved : unresolved buf (calls ++ [Call.resolve]) e.labels =
          unresolved buf calls e.labels := by
        rw [unresolved_concat]
        simp [unresolved, Call.bytes, Call.fixups]
      rw [hlabels, hunresolved, call, h.resolve_eq]
      exact ⟨_, ahead_resolve _⟩
    · obtain ⟨done', h'⟩ := h.call (within_unresolved buf calls e.labels) c
      refine ⟨done', ?_⟩
      rw [h'.labels, ← call_unresolved buf calls e.labels hc]
      exact h'

/-! ### What comes of the calls -/

/-- The second buffer is the first with these placeholders patched: each holds the distance from its
end to where its label was bound, and all other bytes are the same. -/
structure Patched (bound : Label → Nat → Prop) (buf buf' : CodeBuffer) (fixups : List Fixup) :
    Prop where
  /-- No byte is added. -/
  size : buf'.size = buf.size
  /-- The placeholders. -/
  field : ∀ f ∈ fixups, ∀ target, bound f.label target →
    ((f.offset + 4 : Nat) : Int) + (buf'.field f.offset).toInt = target
  /-- The other bytes. -/
  other : ∀ i, (∀ f ∈ fixups, i < f.offset ∨ f.offset + 4 ≤ i) → buf'.bytes[i]? = buf.bytes[i]?

theorem toInt_displacement {f : Fixup} {target size : Nat} (hf : f.offset + 4 ≤ size)
    (htarget : target ≤ size) (hsize : size < 2 ^ 31) :
    ((f.offset + 4 : Nat) : Int) + (f.displacement target).toInt = target := by
  have hbmod : ((target : Int) - (f.offset + 4)).bmod Int32.size = target - (f.offset + 4) := by
    have h32 : Int32.size = 2 ^ 32 := rfl
    refine Int.bmod_eq_of_le ?_ ?_ <;> rw [h32] <;> omega
  rw [Fixup.displacement, Int32.toInt_ofInt, hbmod]
  omega

theorem patched_patchAll {bound : Label → Nat → Prop}
    (hbound : ∀ label target, bound label target ↔ offset? label = some target)
    (hapart : fixups.Pairwise fun f g => f.offset + 4 ≤ g.offset)
    (hwithin : ∀ f ∈ fixups, f.offset + 4 ≤ buf.size)
    (htarget : ∀ label target, bound label target → target ≤ buf.size)
    (hsize : buf.size < 2 ^ 31) : Patched bound buf (patchAll offset? buf fixups) fixups where
  size := size_patchAll ..
  field f hf target ht := by
    rw [field_patchAll hapart hwithin hf ((hbound f.label target).1 ht)]
    exact toInt_displacement (hwithin f hf) (htarget f.label target ht) hsize
  other i hi := getElem?_patchAll hi ..

/-- Code is handed out if and only if every placeholder can be patched. -/
theorem finish_eq_ok_iff {code : CodeBuffer} :
    e.finish = .ok code ↔ (∀ f ∈ e.fixups.toList, e.isBound f = true) ∧
      patchAll e.labelOffset? e.buf e.fixups.toList = code := by
  unfold finish
  rw [resolve_eq]
  by_cases hall : ∀ f ∈ e.fixups.toList, e.isBound f = true
  · have hpending : e.pending = [] := List.dropWhile_eq_nil_iff.2 hall
    have hpatched : e.patched = e.fixups.toList := List.takeWhile_eq_self_iff.2 hall
    simp only [hpending, hpatched, List.head?_nil, Option.map_none, Except.ok.injEq]
    exact ⟨fun h => ⟨hall, h⟩, And.right⟩
  · refine iff_of_false ?_ fun h => hall h.1
    cases hpending : e.pending with
    | nil => exact absurd (List.dropWhile_eq_nil_iff.1 hpending) hall
    | cons f rest => simp

variable {calls : List Call}

theorem isBound_after_iff {buf : CodeBuffer} {f : Fixup} :
    ((ofBuffer buf).after calls).isBound f = true ↔
      ∃ target, (ofBuffer buf).BoundAt calls f.label target := by
  rw [isBound, Option.isSome_iff_exists]
  exact exists_congr fun target => labelOffset?_after_iff

/-- A resolution in between makes no difference to a later one. -/
theorem resolve_after_resolve (hwithin : e.Within) (calls : List Call) :
    (e.after (.resolve :: calls)).resolve = (e.after calls).resolve := by
  obtain ⟨done, h⟩ := (ahead_resolve e).after hwithin calls
  exact h.resolve_eq

theorem not_isBound_of_pending {f : Fixup} (h : f ∈ e.pending.head?) : ¬ e.isBound f = true := by
  have hhead := List.head?_dropWhile_not e.isBound e.fixups.toList
  rw [pending, Option.mem_def] at h
  rw [h] at hhead
  exact Bool.eq_false_iff.1 hhead

/-- What the placeholders of `calls` become when they are patched. -/
theorem patched_of_boundAt {buf buf' : CodeBuffer} (hsize : buf'.size < 2 ^ 31)
    (hoffset : ((ofBuffer buf).after calls).offset = buf'.size)
    (hfixups : fixups.Sublist (Call.jumps buf.size calls))
    (hwithin : ∀ f ∈ fixups, f.offset + 4 ≤ buf'.size) :
    Patched ((ofBuffer buf).BoundAt calls) buf'
      (patchAll ((ofBuffer buf).after calls).labelOffset? buf' fixups) fixups := by
  refine patched_patchAll (fun label target => labelOffset?_after_iff.symm)
    ((Call.jumps_apart ..).sublist hfixups) hwithin (fun label target h => ?_) hsize
  rw [← hoffset]
  exact h.le_offset

/-- The code is as long as what was appended. -/
theorem offset_after (buf : CodeBuffer) (calls : List Call) :
    ((ofBuffer buf).after calls).offset = (buf.append (Call.appended calls)).size := by
  obtain ⟨done, hahead⟩ := exists_ahead_after buf calls
  exact hahead.offset

/-- Placeholders wait in the order of their jumps. -/
theorem exists_jumps_eq_append (buf : CodeBuffer) (calls : List Call) :
    ∃ done, Call.jumps buf.size calls = done ++ ((ofBuffer buf).after calls).fixups.toList := by
  obtain ⟨done, hahead⟩ := exists_ahead_after buf calls
  exact ⟨done, hahead.fixups⟩

/-- The code is finished as if nothing had been resolved before. -/
theorem finish_after_eq_ok_iff {buf code : CodeBuffer} :
    ((ofBuffer buf).after calls).finish = .ok code ↔
      (∀ f ∈ Call.jumps buf.size calls, ∃ target, (ofBuffer buf).BoundAt calls f.label target) ∧
      patchAll ((ofBuffer buf).after calls).labelOffset? (buf.append (Call.appended calls))
        (Call.jumps buf.size calls) = code := by
  obtain ⟨done, hahead⟩ := exists_ahead_after buf calls
  have hlabels := hahead.labelOffset?
  have hbound (f : Fixup) : isBound (unresolved buf calls ((ofBuffer buf).after calls).labels) f =
      true ↔ ∃ target, (ofBuffer buf).BoundAt calls f.label target := by
    rw [isBound, ← hlabels]
    exact isBound_after_iff
  have hfinish : ((ofBuffer buf).after calls).finish =
      (unresolved buf calls ((ofBuffer buf).after calls).labels).finish := by
    rw [finish, finish, hahead.resolve_eq]
  rw [hfinish, finish_eq_ok_iff, ← hlabels]
  simp only [hbound]
  rfl

/-- Finished code is what was appended, with every jump leading to its label. -/
theorem patched_of_finish {buf code : CodeBuffer}
    (hsize : ((ofBuffer buf).after calls).offset < 2 ^ 31)
    (hcode : ((ofBuffer buf).after calls).finish = .ok code) :
    Patched ((ofBuffer buf).BoundAt calls) (buf.append (Call.appended calls)) code
      (Call.jumps buf.size calls) := by
  have hoffset := offset_after buf calls
  rw [← (finish_after_eq_ok_iff.1 hcode).2]
  refine patched_of_boundAt (hoffset ▸ hsize) hoffset (List.Sublist.refl _) fun f hf => ?_
  rw [CodeBuffer.size_append]
  exact (Call.jumps_within hf).2

/-- A resolution patches the first placeholders. -/
theorem patched_resolve {buf : CodeBuffer} (hsize : ((ofBuffer buf).after calls).offset < 2 ^ 31) :
    Patched ((ofBuffer buf).BoundAt calls) ((ofBuffer buf).after calls).buf
      ((ofBuffer buf).after calls).resolve.2.buf ((ofBuffer buf).after calls).patched := by
  obtain ⟨done, hjumps⟩ := exists_jumps_eq_append buf calls
  have hwithin := (within_ofBuffer buf).after calls
  have hpatched : ((ofBuffer buf).after calls).patched.Sublist
      ((ofBuffer buf).after calls).fixups.toList := List.takeWhile_sublist _
  rw [resolve_eq]
  refine patched_of_boundAt hsize rfl ?_ fun f hf => hwithin f (hpatched.mem hf)
  rw [hjumps]
  exact hpatched.trans (List.sublist_append_right ..)

/-- **Labels and placeholders.**  Whatever the calls, and in whatever order:
* the code can be finished if and only if the label of every jump is bound, and then each jump leads
  to where its label was bound, and all other bytes are as they were appended;
* a resolution patches and removes the first placeholders, up to one whose label is unbound, which
  it names and leaves, with all after it;
* a resolution in between does not make a difference to a later one;
* placeholders wait in the order of their jumps, lie within the code, behind what was there first,
  and apart from each other. -/
theorem placeholders_resolved (buf : CodeBuffer) (calls : List Call)
    (hsize : ((ofBuffer buf).after calls).offset < 2 ^ 31) :
    let e := (ofBuffer buf).after calls
    let bound := (ofBuffer buf).BoundAt calls
    let jumps := Call.jumps buf.size calls
    ((∃ code, e.finish = .ok code) ↔ ∀ f ∈ jumps, ∃ target, bound f.label target) ∧
    (∀ code, e.finish = .ok code → Patched bound (buf.append (Call.appended calls)) code jumps) ∧
    (∃ done rest, e.fixups.toList = done ++ rest ∧ e.resolve.2.fixups.toList = rest ∧
      (∀ f ∈ done, ∃ target, bound f.label target) ∧
      (∀ f ∈ rest.head?, ¬ ∃ target, bound f.label target) ∧
      e.resolve.1 = rest.head?.map (fun f => .unboundLabel f.label) ∧
      e.resolve.2.labels = e.labels ∧ Patched bound e.buf e.resolve.2.buf done) ∧
    (∀ before later, calls = before ++ later →
      ((ofBuffer buf).after (before ++ .resolve :: later)).resolve = e.resolve) ∧
    (∃ done, jumps = done ++ e.fixups.toList) ∧
    (∀ f ∈ jumps, buf.size ≤ f.offset ∧ f.offset + 4 ≤ e.offset) ∧
    jumps.Pairwise fun f g => f.offset + 4 ≤ g.offset := by
  intro e bound jumps
  refine ⟨?_, fun code => patched_of_finish hsize, ⟨e.patched, e.pending, ?_⟩, ?_,
    exists_jumps_eq_append buf calls, ?_, Call.jumps_apart ..⟩
  · refine ⟨?_, fun hall => ⟨_, finish_after_eq_ok_iff.2 ⟨hall, rfl⟩⟩⟩
    rintro ⟨code, hcode⟩
    exact (finish_after_eq_ok_iff.1 hcode).1
  · refine ⟨List.takeWhile_append_dropWhile.symm, by rw [resolve_eq], fun f hf => ?_,
      fun f hf => ?_, by rw [resolve_eq], by rw [resolve_eq], patched_resolve hsize⟩
    · exact isBound_after_iff.1 (List.mem_takeWhile_imp hf)
    · exact mt isBound_after_iff.2 (not_isBound_of_pending hf)
  · rintro before later rfl
    rw [after_append, resolve_after_resolve ((within_ofBuffer buf).after before), ← after_append]
  · intro f hf
    have hoffset : e.offset = (buf.append (Call.appended calls)).size := offset_after buf calls
    rw [hoffset, CodeBuffer.size_append]
    exact Call.jumps_within hf

/-- A loop: a jump out of it, an early resolution, and a jump back. -/
def smallLoop : List Call :=
  [.newLabel, .newLabel, .bind 0, .add (.jumpIf .e 1), .resolve, .add (.jump 0), .bind 1,
    .add (.instr .ret)]

/-- The code of the loop, behind a byte that was there first. -/
def smallLoopCode : CodeBuffer :=
  ⟨#[0xC3, 0x0F, 0x84, 5, 0, 0, 0, 0xE9, 0xF5, 0xFF, 0xFF, 0xFF, 0xC3]⟩

theorem placeholders_resolved_smallLoop :
    ((ofBuffer ⟨#[0xC3]⟩).after smallLoop).offset < 2 ^ 31 ∧
      ((ofBuffer ⟨#[0xC3]⟩).after smallLoop).finish = .ok smallLoopCode ∧
      Patched ((ofBuffer ⟨#[0xC3]⟩).BoundAt smallLoop)
        (CodeBuffer.append ⟨#[0xC3]⟩ (Call.appended smallLoop)) smallLoopCode
        (Call.jumps 1 smallLoop) := by
  have hsize : ((ofBuffer ⟨#[0xC3]⟩).after smallLoop).offset < 2 ^ 31 := by decide
  have hfinish : ((ofBuffer ⟨#[0xC3]⟩).after smallLoop).finish = .ok smallLoopCode := by
    decide
  exact ⟨hsize, hfinish, (placeholders_resolved ⟨#[0xC3]⟩ smallLoop hsize).2.1 _ hfinish⟩

end Emitter

end Host

end AlphaMachine
