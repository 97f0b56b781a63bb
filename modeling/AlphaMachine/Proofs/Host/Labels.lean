import AlphaMachine.Proofs.Host.Placement
import Mathlib.Data.List.Nodup

/-!
# Labels of symbolic code

Assembling can only fail over labels.  Code in which every label has one position at most, and one
at least if it is jumped to (`Host.Line.Closed`), can be assembled
(`Host.Line.Closed.exists_assemble_eq`).

If the addresses are wide, linking such code gives the bytes that come of loading the addresses by
instructions, in their shortest exact form (`Host.Line.Closed.assemble_resolved`).
-/

namespace AlphaMachine

namespace Host

namespace Line

variable {L S : Type} {code : List (Line L S)}

/-- The label whose position a line is. -/
def bound? : Line L S → Option L
  | .bind label => some label
  | _ => none

/-- Labels have one position each, if they need one. -/
structure Closed (code : List (Line L S)) : Prop where
  /-- No label has two positions. -/
  nodup : (code.filterMap bound?).Nodup
  /-- Labels that are jumped to have a position. -/
  bound : ∀ label ∈ code.filterMap target?, label ∈ code.filterMap bound?

theorem nodup_eraseDups [DecidableEq L] (l : List L) : l.eraseDups.Nodup := by
  match l with
  | [] => exact List.nodup_nil
  | label :: rest =>
    rw [List.eraseDups_cons, List.nodup_cons]
    exact ⟨by simp, nodup_eraseDups (rest.filter fun other => !other == label)⟩
termination_by l.length
decreasing_by exact Nat.lt_succ_of_le (List.length_filter_le _ _)

theorem exists_eq_of_mem_bound {label : L} (h : label ∈ code.filterMap bound?) :
    ∃ before after, code = before ++ Line.bind label :: after := by
  obtain ⟨line, hline, hbound⟩ := List.mem_filterMap.1 h
  cases line with
  | bind label' =>
    cases hbound
    exact List.append_of_mem hline
  | instr | address | jump | jumpIf => cases hbound

/-- Lines can be emitted as long as each label is new when its position comes. -/
theorem exists_foldlM_emit {number : L → Label} {state : Assembling S}
    (hfree : ∀ label ∈ code.filterMap bound?, state.1.labels[number label]? = some none)
    (hnodup : ((code.filterMap bound?).map number).Nodup) :
    ∃ state', code.foldlM (emit number) state = .ok state' := by
  induction code generalizing state with
  | nil => exact ⟨state, rfl⟩
  | cons line rest ih =>
    obtain ⟨e, relocations⟩ := state
    cases line with
    | instr | address | jump | jumpIf =>
      rw [List.foldlM_cons]
      exact ih hfree hnodup
    | bind label =>
      simp only [List.filterMap_cons, bound?, List.map_cons, List.nodup_cons,
        List.forall_mem_cons] at hfree hnodup
      -- Binding this label leaves those of the rest unbound, as their numbers differ.
      have hbind := Emitter.bind_of_unbound hfree.1
      simp only [List.foldlM_cons, emit, hbind]
      refine ih (fun label' hlabel' => ?_) hnodup.2
      have hne : number label ≠ number label' := by
        intro heq
        refine hnodup.1 ?_
        rw [heq]
        exact List.mem_map_of_mem hlabel'
      change (e.labels.setIfInBounds (number label) (some e.offset))[number label']? = some none
      rw [Array.getElem?_setIfInBounds_ne hne]
      exact hfree.2 label' hlabel'

theorem labels_withLabels (count : Nat) : (withLabels count).labels = .replicate count none := by
  induction count with
  | zero => rfl
  | succ count ih =>
    change (withLabels count).labels.push none = _
    rw [ih, Array.replicate_succ]

theorem exists_of_mem_along {α : Type} {f : Nat → Line L S → List α} {x : α} {offset : Nat}
    (h : x ∈ along f offset code) : ∃ line ∈ code, ∃ offset', x ∈ f offset' line := by
  induction code generalizing offset with
  | nil => cases h
  | cons line rest ih =>
    rcases List.mem_append.1 h with h | h
    · exact ⟨line, List.mem_cons_self, offset, h⟩
    · obtain ⟨line', hline', hx⟩ := ih h
      exact ⟨line', List.mem_cons_of_mem _ hline', hx⟩

/-- **Closed code can be assembled.** -/
theorem Closed.exists_assemble_eq [DecidableEq L] (h : Closed code) :
    ∃ object, assemble code = .ok object := by
  have hmem {label : L} (hlabel : label ∈ code.filterMap bound?) : label ∈ labels code := by
    obtain ⟨before, after, rfl⟩ := exists_eq_of_mem_bound hlabel
    refine List.mem_eraseDups.2 (List.mem_filterMap.2 ⟨.bind label, ?_, rfl⟩)
    simp
  -- Every label has a number of its own, below the number of labels.
  have hfree (label : L) (hlabel : label ∈ code.filterMap bound?) :
      (withLabels (labels code).length).labels[(labels code).idxOf label]? = some none := by
    have hlt := List.idxOf_lt_length_of_mem (hmem hlabel)
    rw [labels_withLabels, Array.getElem?_replicate, if_pos hlt]
  have hnodup : ((code.filterMap bound?).map (labels code).idxOf).Nodup := by
    refine List.Nodup.map_on ?_ h.nodup
    intro label hlabel label' _ heq
    exact (List.idxOf_inj (hmem hlabel)).1 heq
  have hemit : ∃ state', code.foldlM (emit (labels code).idxOf)
      (withLabels (labels code).length, (#[] : Array (Nat × S))) = .ok state' :=
    exists_foldlM_emit hfree hnodup
  obtain ⟨⟨e, relocations⟩, hemit⟩ := hemit
  have hemits := emits_of_foldlM hemit
  have hfixups : e.fixups.toList =
      along (fixups (labels code).idxOf) (withLabels (labels code).length).offset code := by
    have hnone := (withLabels_eq (labels code).length).2
    rw [hemits.fixups, hnone]
    rfl
  have hbound : ∀ f ∈ e.fixups.toList, e.isBound f = true := by
    intro f hf
    rw [hfixups] at hf
    obtain ⟨line, hline, offset, hf⟩ := exists_of_mem_along hf
    have hlabel : ∃ label ∈ line.target?, f.label = (labels code).idxOf label := by
      cases line with
      | jump label | jumpIf cond label =>
        cases List.mem_singleton.1 hf
        exact ⟨label, rfl, rfl⟩
      | instr | address | bind => cases hf
    obtain ⟨label, htarget, hlabel⟩ := hlabel
    obtain ⟨before, after, hcode⟩ :=
      exists_eq_of_mem_bound (h.bound label (List.mem_filterMap.2 ⟨line, hline, htarget⟩))
    have hoffset := hemits.bound before label after hcode
    rw [Emitter.isBound, hlabel, hoffset]
    rfl
  have hfinish := Emitter.finish_eq_ok_iff.2 ⟨hbound, rfl⟩
  refine ⟨⟨Emitter.patchAll e.labelOffset? e.buf e.fixups.toList, relocations.toList⟩, ?_⟩
  simp only [assemble, hemit, hfinish, Bind.bind, Except.bind, Pure.pure, Except.pure]

/-! ### Addresses that are known -/

/-- The line with the address of its symbol. -/
def resolved (address : S → UInt64) : Line L S → Line L S
  | .address dst symbol => .instr (.movImm dst (address symbol))
  | line => line

variable {address : S → UInt64}

theorem bound?_resolved (line : Line L S) : (line.resolved address).bound? = line.bound? := by
  cases line <;> rfl

theorem target?_resolved (line : Line L S) : (line.resolved address).target? = line.target? := by
  cases line <;> rfl

theorem Closed.resolved (h : Closed code) (address : S → UInt64) :
    Closed (code.map (Line.resolved address)) := by
  have hbound : (code.map (Line.resolved address)).filterMap bound? = code.filterMap bound? := by
    rw [List.filterMap_map]
    exact List.filterMap_congr fun line _ => bound?_resolved line
  have htarget : (code.map (Line.resolved address)).filterMap target? =
      code.filterMap target? := by
    rw [List.filterMap_map]
    exact List.filterMap_congr fun line _ => target?_resolved line
  exact ⟨hbound ▸ h.nodup, by rw [hbound, htarget]; exact h.bound⟩

section Wide

variable (hwide : ∀ symbol, Instr.IsWide (address symbol))

include hwide

theorem bytes_resolved (line : Line L S) (distance : Int32) (a : UInt64) :
    (line.resolved address).bytes distance a =
      line.bytes distance (line.symbolAddress address) := by
  cases line with
  | address dst symbol => exact Instr.encodeMovImm_of_isWide (hwide symbol) dst
  | instr | jump | jumpIf | bind => rfl

theorem width_resolved (line : Line L S) : (line.resolved address).width = line.width := by
  rw [width, bytes_resolved hwide, length_bytes]

theorem extent_resolved (code : List (Line L S)) :
    extent (code.map (Line.resolved address)) = extent code := by
  induction code with
  | nil => rfl
  | cons line rest ih => rw [List.map_cons, extent_cons, extent_cons, ih, width_resolved hwide]

theorem along_resolved {α : Type} {f g : Nat → Line L S → List α}
    (h : ∀ line ∈ code, ∀ offset, f offset (line.resolved address) = g offset line)
    (offset : Nat) :
    along f offset (code.map (Line.resolved address)) = along g offset code := by
  induction code generalizing offset with
  | nil => rfl
  | cons line rest ih =>
    rw [List.map_cons, along, along, h line List.mem_cons_self, width_resolved hwide,
      ih fun line' hline' => h line' (List.mem_cons_of_mem _ hline')]

theorem relocations_resolved (offset : Nat) (code : List (Line L S)) :
    along relocations offset (code.map (Line.resolved address)) = [] := by
  have hnone : ∀ line ∈ code, ∀ offset, (line.resolved address).relocations offset = [] := by
    intro line _ offset
    cases line <;> rfl
  rw [along_resolved hwide (g := fun _ _ => []) hnone]
  induction code generalizing offset with
  | nil => rfl
  | cons line rest ih => exact ih _ fun line' hline' => hnone line' (List.mem_cons_of_mem _ hline')

/-- **The form that spells out all 64 bits is the one that the addresses ask for.** -/
theorem Closed.assemble_resolved [DecidableEq L] {object : Object S} (hclosed : Closed code)
    (h : assemble code = .ok object) :
    assemble (code.map (Line.resolved address)) = .ok ⟨object.link address, []⟩ := by
  obtain ⟨⟨buf, places⟩, h'⟩ := (hclosed.resolved address).exists_assemble_eq
  obtain ⟨target, hbytes, -, htarget⟩ := exists_bytes_eq h address
  obtain ⟨target', hbytes', -, htarget'⟩ := exists_bytes_eq h' address
  -- No address is left to be filled in.
  obtain rfl : places = [] := by
    obtain ⟨e, found, hemits, -, hplaces⟩ := exists_emits_of_assemble h'
    exact hplaces.trans (hemits.relocations.trans (relocations_resolved hwide _ code))
  -- Labels are at the same offsets as before.
  have hlabels : ∀ line ∈ code, ∀ label ∈ line.target?, target' label = target label := by
    intro line hline label hlabel
    have hmem := hclosed.bound label (List.mem_filterMap.2 ⟨line, hline, hlabel⟩)
    obtain ⟨before, after, rfl⟩ := exists_eq_of_mem_bound hmem
    rw [htarget before label after rfl, ← extent_resolved hwide before]
    exact htarget' _ label (after.map (Line.resolved address)) (List.map_append ..)
  have hplaced : ∀ line ∈ code, ∀ offset,
      (line.resolved address).placed target' address offset =
        line.placed target address offset := by
    intro line hline offset
    have hdistance : (line.resolved address).distance target' offset =
        line.distance target offset := by
      rw [distance, distance, target?_resolved, width_resolved hwide]
      cases hjump : line.target? with
      | none => rfl
      | some label => simp only [hlabels line hline label hjump]
    rw [placed, placed, bytes_resolved hwide, hdistance]
  have hbuf : buf.bytes.toList = (object.link address).bytes.toList :=
    hbytes'.trans ((along_resolved hwide hplaced 0).trans hbytes.symm)
  have hlinked : buf = object.link address :=
    congrArg CodeBuffer.mk (Array.toList_inj.1 hbuf)
  rw [h', hlinked]

end Wide

end Line

end Host

end AlphaMachine
