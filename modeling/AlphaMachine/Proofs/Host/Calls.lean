import AlphaMachine.Host.Emitter
import AlphaMachine.Proofs.Host.Buffer
import Mathlib.Data.List.Induction

/-!
# Calls of an emitter

Calls of an emitter may come in any order (`Host.Emitter.after`): labels are made and bound, code is
appended, and placeholders are resolved, as far as their labels are bound.  What comes of it can be
read off the calls:

* the bytes that they append (`Host.Call.appended`), and what one of them adds to an emitter
  (`Host.Emitter.add_eq`);
* the placeholders among these bytes (`Host.Call.jumps`), which lie within the code
  (`Host.Call.jumps_within`) and apart from each other (`Host.Call.jumps_apart`);
* where labels were bound (`Host.Emitter.BoundAt`), which is what the emitter keeps of them
  (`Host.Emitter.labelOffset?_after_iff`).
-/

namespace AlphaMachine

namespace Host

/-! ### Calls -/

/-- What one call appends: an instruction, or a jump to a label. -/
inductive Emission where
  /-- An instruction. -/
  | instr (i : Instr)
  /-- Jump to a label. -/
  | jump (label : Label)
  /-- Jump to a label if a condition holds. -/
  | jumpIf (cond : Cond) (label : Label)
  deriving DecidableEq

namespace Emission

/-- The bytes before the placeholder. -/
def head : Emission → List UInt8
  | .instr i => i.encode
  | .jump _ => [0xE9]
  | .jumpIf cond _ => [0x0F, 0x80 + UInt8.ofNat cond.code]

/-- The label that is jumped to. -/
def label? : Emission → Option Label
  | .instr _ => none
  | .jump label | .jumpIf _ label => some label

/-- All bytes, the placeholder being zero. -/
def bytes (code : Emission) : List UInt8 :=
  code.head ++ List.replicate (4 * code.label?.toList.length) 0

/-- The placeholder of code that begins at `offset`. -/
def fixups (offset : Nat) (code : Emission) : List Fixup :=
  code.label?.toList.map (⟨offset + code.head.length, ·⟩)

theorem length_bytes (code : Emission) :
    code.bytes.length = code.head.length + 4 * code.label?.toList.length := by
  rw [bytes, List.length_append, List.length_replicate]

end Emission

/-- Calls of an emitter. -/
inductive Call where
  /-- Make a label. -/
  | newLabel
  /-- Bind a label to the current offset. -/
  | bind (label : Label)
  /-- Append code. -/
  | add (code : Emission)
  /-- Resolve placeholders. -/
  | resolve
  deriving DecidableEq

namespace Call

/-- The bytes that a call appends. -/
def bytes : Call → List UInt8
  | .add code => code.bytes
  | _ => []

/-- The placeholder that a call leaves at `offset`. -/
def fixups (offset : Nat) : Call → List Fixup
  | .add code => code.fixups offset
  | _ => []

/-- The bytes that calls append. -/
def appended (calls : List Call) : List UInt8 := calls.flatMap bytes

/-- The placeholders that calls leave from `offset` on, in their order. -/
def jumps (offset : Nat) : List Call → List Fixup
  | [] => []
  | call :: rest => call.fixups offset ++ jumps (offset + call.bytes.length) rest

theorem appended_concat (calls : List Call) (call : Call) :
    appended (calls ++ [call]) = appended calls ++ call.bytes := by
  simp [appended]

theorem jumps_concat (offset : Nat) (calls : List Call) (call : Call) :
    jumps offset (calls ++ [call]) =
      jumps offset calls ++ call.fixups (offset + (appended calls).length) := by
  induction calls generalizing offset with
  | nil => simp [jumps, appended]
  | cons first rest ih =>
    have hlength : (appended (first :: rest)).length =
        first.bytes.length + (appended rest).length := by
      simp [appended]
    rw [List.cons_append, jumps, ih, jumps, List.append_assoc, hlength, Nat.add_assoc]

/-- The placeholder of a call is the end of its bytes. -/
theorem fixups_within {offset : Nat} {call : Call} {f : Fixup} (hf : f ∈ call.fixups offset) :
    offset ≤ f.offset ∧ f.offset + 4 = offset + call.bytes.length := by
  cases call with
  | add code =>
    obtain ⟨label, hlabel, rfl⟩ := List.mem_map.1 hf
    rw [Option.mem_toList] at hlabel
    have hlength : code.bytes.length = code.head.length + 4 := by
      rw [code.length_bytes, hlabel, Option.toList_some, List.length_singleton]
    exact ⟨Nat.le_add_right .., by rw [bytes, hlength, Nat.add_assoc]⟩
  | _ => cases hf

/-- Placeholders lie within the appended bytes. -/
theorem jumps_within {offset : Nat} {calls : List Call} {f : Fixup} (hf : f ∈ jumps offset calls) :
    offset ≤ f.offset ∧ f.offset + 4 ≤ offset + (appended calls).length := by
  induction calls using List.reverseRecOn with
  | nil => cases hf
  | append_singleton calls call ih =>
    rw [jumps_concat, List.mem_append] at hf
    rw [appended_concat, List.length_append]
    rcases hf with hf | hf
    · have hold := ih hf
      omega
    · have hnew := fixups_within hf
      omega

/-- Placeholders lie apart. -/
theorem jumps_apart (offset : Nat) (calls : List Call) :
    (jumps offset calls).Pairwise fun f g => f.offset + 4 ≤ g.offset := by
  induction calls using List.reverseRecOn with
  | nil => exact List.Pairwise.nil
  | append_singleton calls call ih =>
    rw [jumps_concat, List.pairwise_append]
    refine ⟨ih, ?_, fun f hf g hg =>
      Nat.le_trans (jumps_within hf).2 (fixups_within hg).1⟩
    cases call with
    | add code => cases h : code.label? <;> simp [fixups, Emission.fixups, h]
    | _ => exact List.Pairwise.nil

end Call

namespace Emitter

/-- Append code. -/
def add (e : Emitter) : Emission → Emitter
  | .instr i => e.emit i
  | .jump label => e.jump label
  | .jumpIf cond label => e.jumpIf cond label

/-- The emitter after a call, whether the call succeeds or not. -/
def call (e : Emitter) : Call → Emitter
  | .newLabel => e.newLabel.2
  | .bind label => (e.bind label).toOption.getD e
  | .add code => e.add code
  | .resolve => e.resolve.2

/-- The emitter after a list of calls. -/
def after (e : Emitter) (calls : List Call) : Emitter := calls.foldl call e

theorem after_append (e : Emitter) (calls calls' : List Call) :
    e.after (calls ++ calls') = (e.after calls).after calls' := List.foldl_append

theorem after_concat (e : Emitter) (calls : List Call) (c : Call) :
    e.after (calls ++ [c]) = (e.after calls).call c := after_append e calls [c]

/-- What code adds to an emitter. -/
theorem add_eq (e : Emitter) (code : Emission) :
    e.add code = ⟨e.buf.append code.bytes, e.labels,
      (e.fixups.toList ++ code.fixups e.offset).toArray⟩ := by
  have hjump (head : List UInt8) (label : Label) : (e.append head).placeholder label =
      ⟨e.buf.append (head ++ List.replicate 4 0), e.labels,
        (e.fixups.toList ++ [Fixup.mk (e.offset + head.length) label]).toArray⟩ := by
    have hzero : Bytes.ofWord (0 : UInt32).toUInt64 4 = List.replicate 4 0 := by decide
    rw [append, placeholder, CodeBuffer.pushDword, CodeBuffer.append_append, hzero]
    refine congrArg (Emitter.mk _ _) ?_
    rw [← Array.toList_inj, Array.toList_push]
    simp [offset]
  cases code with
  | instr i =>
    simp [add, emit, append, Emission.bytes, Emission.head, Emission.label?, Emission.fixups]
  | jump label => exact hjump [0xE9] label
  | jumpIf cond label => exact hjump [0x0F, 0x80 + UInt8.ofNat cond.code] label

/-! ### Resolution -/

/-- The label of the placeholder is bound. -/
def isBound (e : Emitter) (f : Fixup) : Bool := (e.labelOffset? f.label).isSome

/-- Patch placeholders, as far as their labels have an offset. -/
def patchAll (offset? : Label → Option Nat) (buf : CodeBuffer) (fixups : List Fixup) : CodeBuffer :=
  fixups.foldl (fun buf f => (offset? f.label).elim buf fun target =>
    buf.patchDword f.offset (f.displacement target).toUInt32) buf

variable {offset? : Label → Option Nat} {buf : CodeBuffer} {fixups : List Fixup}

theorem patchAll_cons {f : Fixup} {target : Nat} (h : offset? f.label = some target)
    (buf : CodeBuffer) (rest : List Fixup) :
    patchAll offset? buf (f :: rest) =
      patchAll offset? (buf.patchDword f.offset (f.displacement target).toUInt32) rest := by
  rw [patchAll, List.foldl_cons, h]
  rfl

theorem patchAll_append (offset? : Label → Option Nat) (buf : CodeBuffer) (l l' : List Fixup) :
    patchAll offset? buf (l ++ l') = patchAll offset? (patchAll offset? buf l) l' :=
  List.foldl_append

/-- Placeholders are patched up to the first whose label is unbound. -/
theorem patch_eq (offset? : Label → Option Nat) (buf : CodeBuffer) (fixups : List Fixup) :
    patch offset? buf fixups =
      (patchAll offset? buf (fixups.takeWhile fun f => (offset? f.label).isSome),
        fixups.dropWhile fun f => (offset? f.label).isSome) := by
  induction fixups generalizing buf with
  | nil => rfl
  | cons f rest ih =>
    cases h : offset? f.label with
    | none => simp [patch, h, patchAll]
    | some target => simp [patch, h, ih, patchAll_cons h]

/-- The placeholders that a resolution patches. -/
def patched (e : Emitter) : List Fixup := e.fixups.toList.takeWhile e.isBound

/-- The placeholders that a resolution leaves. -/
def pending (e : Emitter) : List Fixup := e.fixups.toList.dropWhile e.isBound

theorem resolve_eq (e : Emitter) :
    e.resolve = (e.pending.head?.map fun f => .unboundLabel f.label,
      ⟨patchAll e.labelOffset? e.buf e.patched, e.labels, e.pending.toArray⟩) := by
  unfold resolve
  rw [patch_eq]
  rfl

theorem patchAll_induction {P : CodeBuffer → Prop} (h : P buf)
    (hpatch : ∀ buf, ∀ f ∈ fixups, ∀ target, offset? f.label = some target → P buf →
      P (buf.patchDword f.offset (f.displacement target).toUInt32)) :
    P (patchAll offset? buf fixups) := by
  refine List.foldlRecOn fixups _ h fun buf hbuf f hf => ?_
  cases hlabel : offset? f.label with
  | none => exact hbuf
  | some target => exact hpatch buf f hf target hlabel hbuf

@[simp]
theorem size_patchAll (offset? : Label → Option Nat) (buf : CodeBuffer) (fixups : List Fixup) :
    (patchAll offset? buf fixups).size = buf.size := by
  refine patchAll_induction (P := fun buf' => buf'.size = buf.size) rfl ?_
  intro buf' f hf target hlabel hsize
  rw [CodeBuffer.size_patchDword, hsize]

/-! ### Labels -/

variable {e e' : Emitter} {label : Label}

theorem bind_of_unbound (h : e.labels[label]? = some none) :
    e.bind label = .ok { e with labels := e.labels.setIfInBounds label (some e.offset) } := by
  simp only [bind, h]

/-- A label that is unknown or bound already is not bound. -/
theorem call_bind_of_bound (h : e.labels[label]? ≠ some none) :
    e.call (.bind label) = e ∧ (e.bind label).toOption = none := by
  have herror : (e.bind label).toOption = none := by
    unfold bind
    split
    · rfl
    · rfl
    · next hnone => exact absurd hnone h
  refine ⟨?_, herror⟩
  rw [call, herror, Option.getD_none]

theorem labelOffset?_newLabel (e : Emitter) (label : Label) :
    e.newLabel.2.labelOffset? label = e.labelOffset? label := by
  simp only [newLabel, labelOffset?, Array.getElem?_push]
  split
  · next heq =>
    subst heq
    simp
  · rfl

theorem labelOffset?_call_bind (h : e.labels[label]? = some none) (label' : Label) :
    (e.call (.bind label)).labelOffset? label' =
      if label = label' then some e.offset else e.labelOffset? label' := by
  have hlt : label < e.labels.size := by
    by_contra hge
    rw [Array.getElem?_eq_none (Nat.le_of_not_lt hge)] at h
    cases h
  rw [call, bind_of_unbound h]
  change (e.labels.setIfInBounds label (some e.offset))[label']?.join = _
  rw [Array.getElem?_setIfInBounds]
  by_cases heq : label = label'
  · rw [if_pos heq, if_pos heq, if_pos hlt, Option.join_some]
  · rw [if_neg heq, if_neg heq]
    rfl

/-- After a call, a label is bound if it was bound before, or by the call. -/
theorem labelOffset?_call_iff {c : Call} {target : Nat} :
    (e.call c).labelOffset? label = some target ↔ e.labelOffset? label = some target ∨
      c = .bind label ∧ (e.bind label).toOption.isSome ∧ e.offset = target := by
  have hsame (h : (e.call c).labelOffset? label = e.labelOffset? label)
      (hc : c = .bind label → (e.bind label).toOption = none) :
      (e.call c).labelOffset? label = some target ↔ e.labelOffset? label = some target ∨
        c = .bind label ∧ (e.bind label).toOption.isSome ∧ e.offset = target := by
    rw [h]
    refine ⟨.inl, ?_⟩
    rintro (hold | ⟨hbind, hsome, -⟩)
    · exact hold
    · rw [hc hbind] at hsome
      cases hsome
  cases c with
  | newLabel => exact hsame (labelOffset?_newLabel e label) (by simp)
  | add code => exact hsame (by rw [call, add_eq]; rfl) (by simp)
  | resolve => exact hsame (by rw [call, resolve_eq]; rfl) (by simp)
  | bind label' =>
    by_cases hb : e.labels[label']? = some none
    · by_cases heq : label' = label
      · subst heq
        have hunbound : e.labelOffset? label' = none := by rw [labelOffset?, hb, Option.join_some]
        rw [labelOffset?_call_bind hb, if_pos rfl, hunbound, bind_of_unbound hb]
        simp [Except.toOption]
      · refine hsame (by rw [labelOffset?_call_bind hb, if_neg heq]) fun hc => ?_
        cases hc
        exact absurd rfl heq
    · obtain ⟨hcall, herror⟩ := call_bind_of_bound hb
      refine hsame (by rw [hcall]) fun hc => ?_
      cases hc
      exact herror

/-- What is bound stays bound at the same offset. -/
theorem labelOffset?_call {target : Nat} (h : e.labelOffset? label = some target) (c : Call) :
    (e.call c).labelOffset? label = some target := labelOffset?_call_iff.2 (.inl h)

/-- The label was bound at `target` by one of the calls: a successful binding at that offset. -/
def BoundAt (e : Emitter) (calls : List Call) (label : Label) (target : Nat) : Prop :=
  ∃ before rest, calls = before ++ .bind label :: rest ∧
    ((e.after before).bind label).toOption.isSome ∧ (e.after before).offset = target

theorem BoundAt.concat {calls : List Call} {target : Nat} (h : e.BoundAt calls label target)
    (c : Call) : e.BoundAt (calls ++ [c]) label target := by
  obtain ⟨before, rest, rfl, hbind⟩ := h
  exact ⟨before, rest ++ [c], by simp, hbind⟩

/-- A binding is the last call or one of the calls before. -/
theorem boundAt_concat_iff {calls : List Call} {c : Call} {target : Nat} :
    e.BoundAt (calls ++ [c]) label target ↔ e.BoundAt calls label target ∨
      c = .bind label ∧ ((e.after calls).bind label).toOption.isSome ∧
        (e.after calls).offset = target := by
  constructor
  · rintro ⟨before, rest, hcalls, hbind⟩
    rcases List.eq_nil_or_concat rest with rfl | ⟨rest', last, rfl⟩
    · obtain ⟨rfl, hc⟩ := List.append_inj' hcalls rfl
      exact .inr ⟨(List.cons.inj hc).1, hbind⟩
    · have hsplit : calls ++ [c] = (before ++ .bind label :: rest') ++ [last] := by
        rw [hcalls]
        simp
      exact .inl ⟨before, rest', (List.append_inj' hsplit rfl).1, hbind⟩
  · rintro (h | ⟨rfl, hbind⟩)
    · exact h.concat c
    · exact ⟨calls, [], rfl, hbind⟩

/-- **The emitter knows where labels were bound.** -/
theorem labelOffset?_after_iff {buf : CodeBuffer} {calls : List Call} {target : Nat} :
    ((ofBuffer buf).after calls).labelOffset? label = some target ↔
      (ofBuffer buf).BoundAt calls label target := by
  induction calls using List.reverseRecOn generalizing target with
  | nil =>
    refine ⟨fun h => ?_, fun h => ?_⟩
    · cases h
    · obtain ⟨before, rest, hcalls, -⟩ := h
      simp at hcalls
  | append_singleton calls c ih =>
    rw [boundAt_concat_iff, after_concat, ← ih]
    exact labelOffset?_call_iff

/-! ### Placeholders within the code -/

/-- Every placeholder lies within the bytes. -/
def Within (e : Emitter) : Prop := ∀ f ∈ e.fixups.toList, f.offset + 4 ≤ e.buf.size

theorem offset_le_call (e : Emitter) (c : Call) : e.offset ≤ (e.call c).offset := by
  cases c with
  | newLabel => exact Nat.le_refl _
  | bind label =>
    by_cases hb : e.labels[label]? = some none
    · rw [call, bind_of_unbound hb]
      exact Nat.le_refl _
    · exact Nat.le_of_eq (congrArg offset (call_bind_of_bound hb).1.symm)
  | add code =>
    rw [call, add_eq, offset, offset, CodeBuffer.size_append]
    exact Nat.le_add_right ..
  | resolve =>
    have hsize : (e.call .resolve).offset = e.offset := by
      rw [call, resolve_eq, offset, offset, size_patchAll]
    exact Nat.le_of_eq hsize.symm

theorem offset_le_after (e : Emitter) (calls : List Call) : e.offset ≤ (e.after calls).offset := by
  induction calls generalizing e with
  | nil => exact Nat.le_refl _
  | cons c rest ih => exact Nat.le_trans (offset_le_call e c) (ih (e.call c))

/-- Labels are bound within the code. -/
theorem BoundAt.le_offset {calls : List Call} {target : Nat} (h : e.BoundAt calls label target) :
    target ≤ (e.after calls).offset := by
  obtain ⟨before, rest, rfl, -, rfl⟩ := h
  rw [after_append]
  exact offset_le_after ..

theorem Within.call (h : e.Within) (c : Call) : (e.call c).Within := by
  cases c with
  | newLabel => exact h
  | bind label =>
    by_cases hb : e.labels[label]? = some none
    · rw [Emitter.call, bind_of_unbound hb]
      exact h
    · rwa [(call_bind_of_bound hb).1]
  | add code =>
    rw [Emitter.call, add_eq]
    intro f hf
    rw [List.toList_toArray, List.mem_append] at hf
    rw [CodeBuffer.size_append]
    rcases hf with hf | hf
    · exact Nat.le_trans (h f hf) (Nat.le_add_right ..)
    · have hnew : f ∈ (Call.add code).fixups e.offset := hf
      exact Nat.le_of_eq (Call.fixups_within hnew).2
  | resolve =>
    rw [Emitter.call, resolve_eq]
    intro f hf
    rw [size_patchAll]
    exact h f ((List.dropWhile_sublist _).mem hf)

theorem Within.after (h : e.Within) (calls : List Call) : (e.after calls).Within := by
  induction calls generalizing e with
  | nil => exact h
  | cons c rest ih => exact ih (h.call c)

theorem within_ofBuffer (buf : CodeBuffer) : (ofBuffer buf).Within := fun f hf => by cases hf

end Emitter

end Host

end AlphaMachine
