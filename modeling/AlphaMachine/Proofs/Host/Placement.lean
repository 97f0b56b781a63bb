import AlphaMachine.Host.Code
import AlphaMachine.Proofs.Host.Resolution
import AlphaMachine.Proofs.Host.Running

/-!
# Code in place

Assembled code whose symbols have got their addresses (`Host.Object.link`) is one line after the
other: `Host.Line.exists_bytes_eq` gives the bytes of each, with the distances of jumps and the
addresses filled in.  Filling them in is a matter of the lines in their order
(`Host.Line.foldl_along`), since neither placeholders nor addresses reach from one line into the
next.

So a processor that reads the code at the offset of a line finds what the line says
(`Host.Line.Placed`): the instruction, the address of the symbol, or a jump to where the label was
bound.
-/

namespace AlphaMachine

/-- Overwriting a stretch in the middle. -/
theorem Bytes.put_middle (before old data after : List UInt8) (h : old.length = data.length) :
    put (before ++ (old ++ after)).toArray before.length data =
      (before ++ (data ++ after)).toArray := by
  induction data generalizing before old with
  | nil =>
    rw [List.length_nil, List.length_eq_zero_iff] at h
    subst h
    rfl
  | cons b rest ih =>
    cases old with
    | nil => cases h
    | cons b' old =>
      have hset : ((before ++ (b' :: old ++ after)).toArray).setIfInBounds before.length b =
          ((before ++ [b]) ++ (old ++ after)).toArray := by
        rw [List.setIfInBounds_toArray]
        simp
      have hlength : before.length + 1 = (before ++ [b]).length := by simp
      rw [put, hset, hlength, ih (before ++ [b]) old (Nat.succ.inj h)]
      simp

namespace Host

variable {L S : Type}

namespace Object

/-- Fill in the address of one symbol. -/
def fill (address : S → UInt64) (buf : CodeBuffer) (relocation : Nat × S) : CodeBuffer :=
  ⟨Bytes.put buf.bytes relocation.1 (Bytes.ofWord (address relocation.2) 8)⟩

/-- The code with the addresses of symbols. -/
def link (object : Object S) (address : S → UInt64) : CodeBuffer :=
  object.relocations.foldl (fill address) object.code

end Object

namespace Line

/-! ### Lines and their offsets -/

/-- The bytes of a line whose jump goes over `distance` or whose symbol is at `address`. -/
def bytes (distance : Int32) (address : UInt64) : Line L S → List UInt8
  | .instr i => i.encode
  | .address dst _ => Instr.encodeMovAbsolute dst address
  | .jump _ => Op.encode (.jump distance)
  | .jumpIf cond _ => Op.encode (.jumpIf cond distance)
  | .bind _ => []

/-- The length of a line in bytes. -/
def width (line : Line L S) : Nat := (line.bytes 0 0).length

/-- The length of some code in bytes. -/
def extent : List (Line L S) → Nat
  | [] => 0
  | line :: rest => line.width + extent rest

/-- What each line gives at its offset. -/
def along {α : Type} (f : Nat → Line L S → List α) : Nat → List (Line L S) → List α
  | _, [] => []
  | offset, line :: rest => f offset line ++ along f (offset + line.width) rest

theorem length_bytes (line : Line L S) (distance : Int32) (address : UInt64) :
    (line.bytes distance address).length = line.width := by
  cases line <;> simp [width, bytes, Instr.encodeMovAbsolute, Op.encode, length_dwordBytes]

@[simp] theorem extent_nil : extent ([] : List (Line L S)) = 0 := rfl

@[simp] theorem extent_cons (line : Line L S) (code : List (Line L S)) :
    extent (line :: code) = line.width + extent code := rfl

@[simp] theorem extent_append (code code' : List (Line L S)) :
    extent (code ++ code') = extent code + extent code' := by
  induction code with
  | nil => exact (Nat.zero_add _).symm
  | cons line rest ih => rw [List.cons_append, extent_cons, ih, extent_cons, Nat.add_assoc]

theorem extent_le_of_eq {code before after : List (Line L S)} {line : Line L S}
    (h : code = before ++ line :: after) : extent (before ++ [line]) ≤ extent code := by
  rw [h]
  simp

theorem width_instr_pos (i : Instr) : 0 < (Line.instr i : Line L S).width := by
  obtain ⟨j, -, hreads⟩ := i.exists_reads
  exact List.length_pos_iff.2 hreads.ne_nil

theorem extent_pos_of_mem {code : List (Line L S)} {i : Instr} (h : .instr i ∈ code) :
    0 < extent code := by
  obtain ⟨before, after, rfl⟩ := List.append_of_mem h
  have hwidth := width_instr_pos i (L := L) (S := S)
  simp
  omega

@[simp] theorem width_bind (label : L) : (Line.bind label : Line L S).width = 0 := rfl

section Along

variable {α : Type} (f g : Nat → Line L S → List α)

theorem along_append (offset : Nat) (code code' : List (Line L S)) :
    along f offset (code ++ code') =
      along f offset code ++ along f (offset + extent code) code' := by
  induction code generalizing offset with
  | nil => rfl
  | cons line rest ih =>
    rw [List.cons_append, along, ih, along, List.append_assoc, extent_cons, Nat.add_assoc]

theorem mem_along {x : α} {offset : Nat} {before after : List (Line L S)} {line : Line L S}
    (h : x ∈ f (offset + extent before) line) :
    x ∈ along f offset (before ++ line :: after) := by
  rw [along_append, along]
  exact List.mem_append_right _ (List.mem_append_left _ h)

variable {f g}

theorem length_along {f : Nat → Line L S → List UInt8}
    (hf : ∀ offset line, (f offset line).length = line.width) (offset : Nat)
    (code : List (Line L S)) : (along f offset code).length = extent code := by
  induction code generalizing offset with
  | nil => rfl
  | cons line rest ih => rw [along, List.length_append, hf, ih, extent_cons]

/-- **Lines are filled in one after the other.**  What is filled in for a line lies within it, and
what came before is complete already. -/
theorem foldl_along {β : Type} {fill : CodeBuffer → β → CodeBuffer}
    {items : Nat → Line L S → List β} {f g : Nat → Line L S → List UInt8}
    (hg : ∀ offset line, (g offset line).length = line.width) {code : List (Line L S)}
    (hfill : ∀ line ∈ code, ∀ before after : List UInt8,
      (items before.length line).foldl fill
        ⟨(before ++ (f before.length line ++ after)).toArray⟩ =
        ⟨(before ++ (g before.length line ++ after)).toArray⟩) (before : List UInt8) :
    (along items before.length code).foldl fill
      ⟨(before ++ along f before.length code).toArray⟩ =
      ⟨(before ++ along g before.length code).toArray⟩ := by
  induction code generalizing before with
  | nil => rfl
  | cons line rest ih =>
    have hlength : before.length + line.width = (before ++ g before.length line).length := by
      rw [List.length_append, hg]
    rw [along, along, along, List.foldl_append, hfill line List.mem_cons_self,
      ← List.append_assoc before, ← List.append_assoc before, hlength]
    exact ih (fun line' hline' => hfill line' (List.mem_cons_of_mem _ hline')) _

end Along

/-! ### Assembly -/

/-- The place of an address. -/
def relocations (offset : Nat) : Line L S → List (Nat × S)
  | .address dst symbol => [(offset + (Instr.encodeMovAbsolute dst 0).length - 8, symbol)]
  | _ => []

/-- The placeholder of a line. -/
def fixups (number : L → Label) (offset : Nat) : Line L S → List Fixup
  | .jump label => [⟨offset + 1, number label⟩]
  | .jumpIf _ label => [⟨offset + 2, number label⟩]
  | _ => []

section Assembly

variable {number : L → Label} {code : List (Line L S)} {state state' : Assembling S}

/-- What emitting code adds. -/
structure Emits (number : L → Label) (code : List (Line L S)) (state state' : Assembling S) :
    Prop where
  /-- The bytes, all distances and addresses being zero. -/
  buf : state'.1.buf =
    state.1.buf.append (along (fun _ line => line.bytes 0 0) state.1.offset code)
  /-- The placeholders. -/
  fixups : state'.1.fixups.toList =
    state.1.fixups.toList ++ along (fixups number) state.1.offset code
  /-- The places of addresses. -/
  relocations : state'.2.toList = state.2.toList ++ along relocations state.1.offset code
  /-- What was bound stays bound. -/
  kept : ∀ label target, state.1.labelOffset? label = some target →
    state'.1.labelOffset? label = some target
  /-- What the code binds is bound at the offset of the line. -/
  bound : ∀ before label after, code = before ++ Line.bind label :: after →
    state'.1.labelOffset? (number label) = some (state.1.offset + extent before)

theorem Emits.offset (h : Emits number code state state') :
    state'.1.offset = state.1.offset + extent code := by
  rw [Emitter.offset, h.buf, CodeBuffer.size_append,
    length_along (fun _ line => length_bytes line 0 0)]
  rfl

theorem Emits.nil (state : Assembling S) : Emits number ([] : List (Line L S)) state state where
  buf := (CodeBuffer.append_nil _).symm
  fixups := (List.append_nil _).symm
  relocations := (List.append_nil _).symm
  kept _ _ h := h
  bound before label after h := by simp at h

/-- Emitting appends the code that a line stands for. -/
theorem emits_add {line : Line L S} {c : Emission} {e : Emitter} {relocations : Array (Nat × S)}
    (hbytes : c.bytes = line.bytes 0 0) (hfixups : c.fixups e.offset = line.fixups number e.offset)
    (hrelocations : line.relocations e.offset = []) (hbind : ∀ label, line ≠ .bind label) :
    Emits number [line] (e, relocations) (e.add c, relocations) where
  buf := by
    rw [Emitter.add_eq, hbytes]
    simp [along]
  fixups := by
    rw [Emitter.add_eq, hfixups]
    simp [along]
  relocations := by simp [along, hrelocations]
  kept label target h := Emitter.labelOffset?_call h (.add c)
  bound before label after h := by
    have hmem : .bind label ∈ [line] := by
      rw [h]
      simp
    exact absurd (List.mem_singleton.1 hmem).symm (hbind label)

theorem emits_line {line : Line L S} (h : line.emit number state = .ok state') :
    Emits number [line] state state' := by
  obtain ⟨e, relocations⟩ := state
  cases line with
  | instr i =>
    cases h
    refine emits_add (c := .instr i) ?_ rfl rfl (by simp)
    simp [Emission.bytes, Emission.head, Emission.label?, bytes]
  | jump label =>
    cases h
    refine emits_add (c := .jump (number label)) ?_ rfl rfl (by simp)
    exact (Emission.encode_op_zero (.jump (number label))).symm
  | jumpIf cond label =>
    cases h
    refine emits_add (c := .jumpIf cond (number label)) ?_ rfl rfl (by simp)
    exact (Emission.encode_op_zero (.jumpIf cond (number label))).symm
  | address dst symbol =>
    cases h
    refine ⟨?_, ?_, ?_, fun _ _ h => h, fun before label after h => ?_⟩
    · simp [Emitter.append, along, bytes]
    · simp [Emitter.append, along, Line.fixups]
    · simp [along, Line.relocations]
    · cases before <;> simp at h
  | bind label =>
    -- The only line that may fail, and the only one that binds a label.
    simp only [emit] at h
    cases hbind : e.bind (number label) with
    | error err =>
      rw [hbind] at h
      cases h
    | ok e' =>
      rw [hbind] at h
      cases h
      have hunbound : e.labels[number label]? = some none := by
        by_contra hne
        have hnone := (Emitter.call_bind_of_bound hne).2
        rw [hbind] at hnone
        cases hnone
      have hcall : e.call (.bind (number label)) = e' := by
        rw [Emitter.call, hbind]
        rfl
      rw [Emitter.bind_of_unbound hunbound] at hbind
      cases hbind
      refine ⟨?_, ?_, ?_, fun label' target h => ?_, fun before label' after h => ?_⟩
      · simp [along, bytes]
      · simp [along, Line.fixups]
      · simp [along, Line.relocations]
      · rw [← hcall]
        exact Emitter.labelOffset?_call h _
      · obtain ⟨rfl, rfl⟩ : before = [] ∧ label' = label := by
          cases before with
          | nil => simp_all
          | cons _ rest => simp at h
        rw [← hcall, Emitter.labelOffset?_call_bind hunbound, if_pos rfl]
        rfl

theorem Emits.cons {line : Line L S} {state'' : Assembling S}
    (h : Emits number [line] state state') (h' : Emits number code state' state'') :
    Emits number (line :: code) state state'' where
  buf := by
    rw [h'.buf, h.buf, CodeBuffer.append_append, h.offset]
    simp [along]
  fixups := by
    rw [h'.fixups, h.fixups, h.offset]
    simp [along]
  relocations := by
    rw [h'.relocations, h.relocations, h.offset]
    simp [along]
  kept label target hlabel := h'.kept _ _ (h.kept _ _ hlabel)
  bound before label after hcode := by
    cases before with
    | nil =>
      obtain ⟨rfl, -⟩ := List.cons.inj hcode
      exact h'.kept _ _ (h.bound [] label [] rfl)
    | cons first before =>
      obtain ⟨rfl, hrest⟩ := List.cons.inj hcode
      rw [h'.bound before label after hrest, h.offset]
      simp [Nat.add_assoc]

/-- **What comes of emitting some code.** -/
theorem emits_of_foldlM (h : code.foldlM (emit number) state = .ok state') :
    Emits number code state state' := by
  induction code generalizing state with
  | nil =>
    cases h
    exact Emits.nil _
  | cons line rest ih =>
    rw [List.foldlM_cons] at h
    cases hline : line.emit number state with
    | error err =>
      rw [hline] at h
      cases h
    | ok state₁ =>
      rw [hline] at h
      exact (emits_line hline).cons (ih h)

end Assembly

/-! ### Filling in -/

/-- The distance that a line jumps over, from its end to its label. -/
def distance (target : L → Nat) (offset : Nat) (line : Line L S) : Int32 :=
  match line.target? with
  | some label => Int32.ofInt (target label - (offset + line.width : Nat))
  | none => 0

/-- The address that a line loads. -/
def symbolAddress (address : S → UInt64) : Line L S → UInt64
  | .address _ symbol => address symbol
  | _ => 0

/-- The bytes of a line in place. -/
def placed (target : L → Nat) (address : S → UInt64) (offset : Nat) (line : Line L S) :
    List UInt8 := line.bytes (line.distance target offset) (line.symbolAddress address)

theorem length_placed (target : L → Nat) (address : S → UInt64) (offset : Nat)
    (line : Line L S) : (line.placed target address offset).length = line.width :=
  length_bytes ..

section Filling

variable {number : L → Label} {offset? : Label → Option Nat} {target : L → Nat}

/-- Patch one placeholder whose label is bound. -/
theorem patchDword_middle (before head after : List UInt8) {width : Nat}
    (hwidth : width = head.length + 4) (target : Nat) (label : Label) :
    CodeBuffer.patchDword ⟨(before ++ (head ++ dwordBytes 0 ++ after)).toArray⟩
      (before.length + head.length)
      (Fixup.displacement ⟨before.length + head.length, label⟩ target).toUInt32 =
      ⟨(before ++ (head ++ dwordBytes (Int32.ofInt (target - (before.length + width : Nat))) ++
        after)).toArray⟩ := by
  have hdistance : Fixup.displacement ⟨before.length + head.length, label⟩ target =
      Int32.ofInt (target - (before.length + width : Nat)) := by
    rw [Fixup.displacement, hwidth]
    congr 2
  have hput := Bytes.put_middle (before ++ head) (dwordBytes 0)
    (dwordBytes (Int32.ofInt (target - (before.length + width : Nat)))) after rfl
  rw [List.length_append] at hput
  simp only [List.append_assoc] at hput ⊢
  rw [hdistance]
  exact congrArg CodeBuffer.mk hput

/-- The distances are filled in. -/
theorem patchAll_along {code : List (Line L S)}
    (hbound : ∀ line ∈ code, ∀ label ∈ line.target?,
      offset? (number label) = some (target label)) :
    Emitter.patchAll offset?
      ⟨(along (fun _ line => line.bytes 0 0) 0 code).toArray⟩ (along (fixups number) 0 code) =
      ⟨(along (placed target fun _ => 0) 0 code).toArray⟩ := by
  refine foldl_along (length_placed target _) ?_ []
  intro line hline before after
  cases line with
  | jump label =>
    have hlabel := hbound _ hline label rfl
    simp only [fixups, List.foldl_cons, List.foldl_nil, hlabel, Option.elim_some]
    exact patchDword_middle before [0xE9] after rfl _ _
  | jumpIf cond label =>
    have hlabel := hbound _ hline label rfl
    simp only [fixups, List.foldl_cons, List.foldl_nil, hlabel, Option.elim_some]
    exact patchDword_middle before [0x0F, 0x80 + UInt8.ofNat cond.code] after rfl _ _
  | instr | address | bind => rfl

/-- The addresses are filled in. -/
theorem fill_along (target : L → Nat) (address : S → UInt64) (code : List (Line L S)) :
    (along relocations 0 code).foldl (Object.fill address)
      ⟨(along (placed target fun _ => 0) 0 code).toArray⟩ =
      ⟨(along (placed target address) 0 code).toArray⟩ := by
  refine foldl_along (length_placed target _) ?_ []
  intro line hline before after
  cases line with
  | address dst symbol =>
    have hput := Bytes.put_middle (before ++ encodePlusReg true 0xB8 dst) (Bytes.ofWord 0 8)
      (Bytes.ofWord (address symbol) 8) after (by rw [Bytes.length_ofWord, Bytes.length_ofWord])
    have hoffset : before.length + (Instr.encodeMovAbsolute dst 0).length - 8 =
        (before ++ encodePlusReg true 0xB8 dst).length := by
      simp only [Instr.encodeMovAbsolute, List.length_append, Bytes.length_ofWord]
      omega
    simp only [List.append_assoc] at hput
    simp only [relocations, List.foldl_cons, List.foldl_nil, Object.fill, placed, bytes,
      symbolAddress, Instr.encodeMovAbsolute, List.append_assoc]
    rw [Instr.encodeMovAbsolute] at hoffset
    rw [hoffset, hput]
  | instr | jump | jumpIf | bind => rfl

end Filling

theorem withLabels_eq (count : Nat) :
    (withLabels count).buf = .empty ∧ (withLabels count).fixups = #[] := by
  induction count with
  | zero => exact ⟨rfl, rfl⟩
  | succ count ih => exact ih

variable {code : List (Line L S)} {object : Object S}

theorem exists_emits_of_assemble [DecidableEq L] (h : assemble code = .ok object) :
    ∃ e relocations, Emits (labels code).idxOf code (withLabels (labels code).length, #[])
      (e, relocations) ∧ e.finish = .ok object.code ∧ object.relocations = relocations.toList := by
  cases hemit : code.foldlM (emit (labels code).idxOf) (withLabels (labels code).length, #[]) with
  | error err =>
    simp only [assemble, hemit] at h
    cases h
  | ok state =>
    cases hfinish : state.1.finish with
    | error err =>
      simp only [assemble, hemit, hfinish, Bind.bind, Except.bind] at h
      cases h
    | ok finished =>
      simp only [assemble, hemit, hfinish, Bind.bind, Except.bind, Pure.pure, Except.pure] at h
      cases h
      exact ⟨state.1, state.2, emits_of_foldlM hemit, hfinish, rfl⟩

/-- **Assembled and linked code is one line after the other.** -/
theorem exists_bytes_eq [DecidableEq L] (h : assemble code = .ok object) (address : S → UInt64) :
    ∃ target : L → Nat,
      (object.link address).bytes.toList = along (placed target address) 0 code ∧
      object.code.size = extent code ∧
      ∀ before label after, code = before ++ Line.bind label :: after →
        target label = extent before := by
  obtain ⟨e, relocations, hemits, hfinish, hrelocations⟩ := exists_emits_of_assemble h
  obtain ⟨hbuf, hfixups⟩ := withLabels_eq (labels code).length
  generalize withLabels (labels code).length = start at hemits hbuf hfixups
  have hoffset : start.offset = 0 := by
    rw [Emitter.offset, hbuf]
    rfl
  obtain ⟨hall, hpatched⟩ := Emitter.finish_eq_ok_iff.1 hfinish
  have hfixups' : e.fixups.toList = along (fixups (labels code).idxOf) 0 code := by
    rw [hemits.fixups, hoffset, hfixups]
    rfl
  have hrelocations' : relocations.toList = along Line.relocations 0 code := by
    rw [hemits.relocations, hoffset]
    rfl
  have hbytes : e.buf = ⟨(along (fun _ line => line.bytes 0 0) 0 code).toArray⟩ := by
    rw [hemits.buf, hoffset, hbuf]
    simp [CodeBuffer.append, CodeBuffer.empty]
  have hsize : object.code.size = extent code := by
    rw [← hpatched, Emitter.size_patchAll, hbytes]
    exact length_along (fun _ line => length_bytes line 0 0) 0 code
  refine ⟨fun label => (e.labelOffset? ((labels code).idxOf label)).getD 0, ?_, hsize, ?_⟩
  · rw [Object.link, hrelocations, hrelocations', ← hpatched, hfixups', hbytes, patchAll_along,
      fill_along]
    -- Every label that is jumped to is bound, since the code could be finished.
    intro line hline label hlabel
    obtain ⟨before, after, rfl⟩ := List.append_of_mem hline
    have hfixup : ∃ f ∈ line.fixups (labels (before ++ line :: after)).idxOf (0 + extent before),
        f.label = (labels (before ++ line :: after)).idxOf label := by
      cases line with
      | jump label' | jumpIf cond label' =>
        cases hlabel
        exact ⟨_, List.mem_singleton_self _, rfl⟩
      | instr | address | bind => cases hlabel
    obtain ⟨f, hf, hlabel'⟩ := hfixup
    have hbound : e.isBound f = true := by
      refine hall f ?_
      rw [hfixups']
      exact mem_along _ hf
    rw [Emitter.isBound, hlabel', Option.isSome_iff_exists] at hbound
    obtain ⟨t, ht⟩ := hbound
    simp only [ht, Option.getD_some]
  · intro before label after hcode
    have hbound : e.labelOffset? ((labels code).idxOf label) =
        some (start.offset + extent before) :=
      hemits.bound before label after hcode
    simp only [hbound, hoffset, Nat.zero_add, Option.getD_some]

theorem size_of_assemble [DecidableEq L] (h : assemble code = .ok object) :
    object.code.size = extent code := by
  obtain ⟨target, -, hsize, -⟩ := exists_bytes_eq h fun _ => 0
  exact hsize

/-! ### Reading lines -/

theorem reads_encodeMovAbsolute (dst : Gpr) (value : UInt64) :
    Reads (Instr.encodeMovAbsolute dst value) (.instr (.movImm dst value)) := by
  refine reads_encodePlusReg true 0xB8 dst _ (by decide) rfl ?_
  simp [Encoding.op?, Encoding.oneByte?, ofNat_littleEndian_ofWord]

/-- What a processor may find in the place of a line; `leads` are the distances to a label. -/
inductive Gives (address : S → UInt64) (leads : L → Int32 → Prop) : Line L S → Op → Prop where
  | instr {i j : Instr} (h : i.Same j) : Gives address leads (.instr i) (.instr j)
  | address (dst : Gpr) (symbol : S) :
    Gives address leads (.address dst symbol) (.instr (.movImm dst (address symbol)))
  | jump {label : L} {distance : Int32} (h : leads label distance) :
    Gives address leads (.jump label) (.jump distance)
  | jumpIf {cond : Cond} {label : L} {distance : Int32} (h : leads label distance) :
    Gives address leads (.jumpIf cond label) (.jumpIf cond distance)

/-- `distance` is that from `next` to wherever the code binds the label, as far as 32 bits can
tell. -/
def Leads (code : List (Line L S)) (next : Nat) (label : L) (distance : Int32) : Prop :=
  ∀ before after, code = before ++ Line.bind label :: after →
    distance = Int32.ofInt (extent before - next)

/-- Jumps reach their labels in code of less than 2 GiB. -/
theorem Leads.target {next : Nat} {label : L} {distance : Int32} {before after : List (Line L S)}
    (h : Leads code next label distance) (hcode : code = before ++ Line.bind label :: after)
    (hnext : next ≤ extent code) (hsize : extent code < 2 ^ 31) :
    (next : Int) + distance.toInt = extent before := by
  have hbefore : extent before ≤ extent code := by
    rw [hcode]
    simp
  have hbmod : ((extent before : Int) - next).bmod Int32.size = extent before - next := by
    have h32 : Int32.size = 2 ^ 32 := rfl
    refine Int.bmod_eq_of_le ?_ ?_ <;> rw [h32] <;> omega
  rw [h before after hcode, Int32.toInt_ofInt, hbmod]
  omega

/-- Code in place: at the offset of each line there is what it says. -/
structure Placed (code : List (Line L S)) (address : S → UInt64) (image : CodeBuffer) : Prop where
  /-- There is nothing else. -/
  size : image.size = extent code
  /-- A label has one position. -/
  bind : ∀ label before after before' after', code = before ++ Line.bind label :: after →
    code = before' ++ Line.bind label :: after' → extent before = extent before'
  /-- Lines other than label positions. -/
  line : ∀ before line after, code = before ++ line :: after → (∀ label, line ≠ .bind label) →
    ∃ op, line.Gives address (Leads code (extent (before ++ [line]))) op ∧
      fetch? image (extent before) = some (op, extent (before ++ [line]))

theorem leads_distance {target : L → Nat} {before : List (Line L S)} {line : Line L S} {label : L}
    (htarget : ∀ before label after, code = before ++ Line.bind label :: after →
      target label = extent before) (hlabel : line.target? = some label) :
    Leads code (extent (before ++ [line])) label (line.distance target (extent before)) := by
  intro before' after' hcode'
  rw [← htarget before' label after' hcode', distance, hlabel]
  simp

/-- **Assembled and linked code is in place.** -/
theorem placed_of_assemble [DecidableEq L] (h : assemble code = .ok object)
    (address : S → UInt64) : Placed code address (object.link address) := by
  obtain ⟨target, hbytes, -, htarget⟩ := exists_bytes_eq h address
  refine ⟨?_, ?_, ?_⟩
  · rw [CodeBuffer.size, ← Array.length_toList, hbytes]
    exact length_along (length_placed target address) 0 code
  · intro label before after before' after' hcode hcode'
    rw [← htarget before label after hcode, htarget before' label after' hcode']
  · intro before line after hcode hbind
    have hfetch {op : Op} (hreads : Reads (line.placed target address (extent before)) op) :
        fetch? (object.link address) (extent before) = some (op, extent (before ++ [line])) := by
      rw [hcode, along_append, along, Nat.zero_add] at hbytes
      have hlength := length_along (length_placed target address) 0 before
      have hop := fetch?_of_reads hbytes hreads
      rw [hlength, length_placed] at hop
      rw [hop, extent_append]
      rfl
    cases line with
    | bind label => exact absurd rfl (hbind label)
    | instr i =>
      obtain ⟨j, hsame, hreads⟩ := i.exists_reads
      exact ⟨.instr j, .instr hsame, hfetch hreads⟩
    | address dst symbol =>
      exact ⟨_, .address dst symbol, hfetch (reads_encodeMovAbsolute dst _)⟩
    | jump label =>
      obtain ⟨op, hsame, hreads⟩ :=
        (Op.jump ((Line.jump label : Line L S).distance target (extent before))).exists_reads
      cases hsame
      exact ⟨_, .jump (leads_distance htarget rfl), hfetch hreads⟩
    | jumpIf cond label =>
      obtain ⟨op, hsame, hreads⟩ :=
        (Op.jumpIf cond ((Line.jumpIf cond label : Line L S).distance target
          (extent before))).exists_reads
      cases hsame
      exact ⟨_, .jumpIf (leads_distance htarget rfl), hfetch hreads⟩

/-! ### Boundaries -/

namespace Placed

variable {address : S → UInt64} {image : CodeBuffer}

/-- The offset of each line is a boundary. -/
theorem boundary (h : Placed code address image) {before after : List (Line L S)}
    (hcode : code = before ++ after) : Boundary image (extent before) := by
  induction before using List.reverseRecOn generalizing after with
  | nil => exact .first
  | append_singleton before line ih =>
    rw [List.append_assoc, List.singleton_append] at hcode
    have hbefore := ih hcode
    by_cases hbind : ∃ label, line = .bind label
    · obtain ⟨label, rfl⟩ := hbind
      simpa using hbefore
    · obtain ⟨op, -, hop⟩ := h.line before line after hcode (not_exists.1 hbind)
      exact .next hbefore hop

/-- At the offset of a line, the next instruction is that of the first line that is not a label
position. -/
theorem exists_line (h : Placed code address image) {before after : List (Line L S)}
    (hcode : code = before ++ after) {op : Op} {next : Nat}
    (hop : fetch? image (extent before) = some (op, next)) :
    ∃ before' line after', code = before' ++ line :: after' ∧
      line.Gives address (Leads code next) op ∧ extent before' = extent before ∧
      next = extent (before' ++ [line]) := by
  induction after generalizing before with
  | nil =>
    rw [List.append_nil] at hcode
    have hlt := lt_of_fetch? hop
    rw [h.size, hcode] at hlt
    exact absurd hlt (Nat.lt_irrefl _)
  | cons line after ih =>
    by_cases hbind : ∃ label, line = .bind label
    · obtain ⟨label, rfl⟩ := hbind
      have hextent : extent (before ++ [Line.bind label]) = extent before := by simp
      have hrest : code = (before ++ [Line.bind label]) ++ after := by simpa using hcode
      obtain ⟨before', line', after', hcode', hgives, hbefore', hnext⟩ :=
        ih hrest (by rwa [hextent])
      exact ⟨before', line', after', hcode', hgives, hbefore'.trans hextent, hnext⟩
    · obtain ⟨op', hgives, hop'⟩ := h.line before line after hcode (not_exists.1 hbind)
      rw [hop] at hop'
      cases hop'
      exact ⟨before, line, after, hcode, hgives, rfl, rfl⟩

/-- Instructions begin where lines do. -/
theorem exists_extent_eq (h : Placed code address image) {offset : Nat}
    (hoffset : Boundary image offset) :
    ∃ before after, code = before ++ after ∧ offset = extent before := by
  induction hoffset with
  | first => exact ⟨[], code, rfl, rfl⟩
  | next hoffset hop ih =>
    obtain ⟨before, after, hcode, rfl⟩ := ih
    obtain ⟨before', line, after', hcode', -, -, rfl⟩ := h.exists_line hcode hop
    exact ⟨before' ++ [line], after', by simpa using hcode', rfl⟩

end Placed

/-! ### Runs through lines -/

namespace Placed

variable {address : S → UInt64} {image : Image} {before after : List (Line L S)}
  {I : Config → Prop} {J : Config → Config → Prop} {post : State → Prop} {limit : Nat} {s : State}

theorem atCall (h : Placed code address image.code) {reg : Gpr}
    (hcode : code = before ++ Line.instr (.callReg reg) :: after) (s : State) :
    image.AtCall ⟨extent before, s⟩ := by
  obtain ⟨op, hgives, hop⟩ := h.line before _ after hcode (by simp)
  cases hgives with
  | instr hsame =>
    cases hsame
    exact ⟨reg, _, hop⟩

/-- A run through instructions in a row. -/
theorem run_instrs (h : Placed code address image.code) {l : List Instr}
    (hcode : code = before ++ (l.map .instr ++ after)) {s' : State}
    (hsteps : l.foldlM (fun s i => i.step (alone image.base) s) s = some s') :
    image.Run l.length ⟨extent before, s⟩ ⟨extent (before ++ l.map .instr), s'⟩ := by
  induction l generalizing before s with
  | nil =>
    cases hsteps
    rw [List.map_nil, List.append_nil]
    exact .nil _
  | cons i rest ih =>
    obtain ⟨s₁, hstep, hsteps⟩ := Option.bind_eq_some_iff.1 hsteps
    rw [List.map_cons, List.cons_append] at hcode
    obtain ⟨op, hgives, hop⟩ := h.line before _ _ hcode (by simp)
    rw [List.map_cons, List.append_cons]
    cases hgives with
    | instr hsame =>
      exact .cons (.instr hop ((hsame.step_eq _ s).trans hstep)) (ih (by simpa using hcode) hsteps)

theorem returns_instr (h : Placed code address image.code) {i : Instr}
    (hcode : code = before ++ Line.instr i :: after) (hI : I ⟨extent before, s⟩) {s' : State}
    (hstep : i.step (alone image.base) s = some s')
    (hJ : J ⟨extent before, s⟩ ⟨extent (before ++ [Line.instr i]), s'⟩)
    (hnext : image.Returns I J post limit ⟨extent (before ++ [Line.instr i]), s'⟩) :
    image.Returns I J post (limit + 1) ⟨extent before, s⟩ := by
  obtain ⟨op, hgives, hop⟩ := h.line before _ after hcode (by simp)
  cases hgives with
  | instr hsame =>
    rw [← hsame.step_eq] at hstep
    exact .of_instr hI hop hstep hJ hnext

theorem returns_ret (h : Placed code address image.code)
    (hcode : code = before ++ Line.instr .ret :: after) (hI : I ⟨extent before, s⟩)
    (hpost : post s) : image.Returns I J post limit ⟨extent before, s⟩ := by
  obtain ⟨op, hgives, hop⟩ := h.line before _ after hcode (by simp)
  cases hgives with
  | instr hsame =>
    cases hsame
    exact .ret hI ⟨_, hop⟩ hpost

theorem returns_call (h : Placed code address image.code) {reg : Gpr}
    (hcode : code = before ++ Line.instr (.callReg reg) :: after) (hI : I ⟨extent before, s⟩)
    (hcallable : image.callable (s.gpr reg))
    (hnext : ∀ s', s.Returned s' →
      J ⟨extent before, s⟩ ⟨extent (before ++ [Line.instr (.callReg reg)]), s'⟩ ∧
      image.Returns I J post limit ⟨extent (before ++ [Line.instr (.callReg reg)]), s'⟩) :
    image.Returns I J post (limit + 1) ⟨extent before, s⟩ := by
  obtain ⟨op, hgives, hop⟩ := h.line before _ after hcode (by simp)
  cases hgives with
  | instr hsame =>
    cases hsame
    exact .of_call hI hop hcallable hnext

theorem returns_address (h : Placed code address image.code) {dst : Gpr} {symbol : S}
    (hcode : code = before ++ Line.address dst symbol :: after) (hI : I ⟨extent before, s⟩)
    (hJ : J ⟨extent before, s⟩
      ⟨extent (before ++ [Line.address dst symbol]), s.set dst (address symbol)⟩)
    (hnext : image.Returns I J post limit
      ⟨extent (before ++ [Line.address dst symbol]), s.set dst (address symbol)⟩) :
    image.Returns I J post (limit + 1) ⟨extent before, s⟩ := by
  obtain ⟨op, hgives, hop⟩ := h.line before _ after hcode (by simp)
  cases hgives with
  | address => exact .of_instr hI hop rfl hJ hnext

theorem returns_jump (h : Placed code address image.code) {label : L}
    (hcode : code = before ++ Line.jump label :: after) (hsize : extent code < 2 ^ 31)
    (hI : I ⟨extent before, s⟩) {before' after' : List (Line L S)}
    (hbound : code = before' ++ Line.bind label :: after')
    (hJ : J ⟨extent before, s⟩ ⟨extent before', s⟩)
    (hnext : image.Returns I J post limit ⟨extent before', s⟩) :
    image.Returns I J post (limit + 1) ⟨extent before, s⟩ := by
  obtain ⟨op, hgives, hop⟩ := h.line before _ after hcode (by simp)
  cases hgives with
  | jump hleads =>
    have htarget := hleads.target hbound (extent_le_of_eq hcode) hsize
    exact .of_jump hI hop htarget hJ hnext

theorem returns_jumpIf (h : Placed code address image.code) {cond : Cond} {label : L}
    (hcode : code = before ++ Line.jumpIf cond label :: after) (hsize : extent code < 2 ^ 31)
    (hI : I ⟨extent before, s⟩) {before' after' : List (Line L S)}
    (hbound : code = before' ++ Line.bind label :: after')
    (hJ : ∀ offset, J ⟨extent before, s⟩ ⟨offset, s⟩)
    (htaken : image.Returns I J post limit ⟨extent before', s⟩)
    (hpassed : image.Returns I J post limit ⟨extent (before ++ [Line.jumpIf cond label]), s⟩) :
    image.Returns I J post (limit + 1) ⟨extent before, s⟩ := by
  obtain ⟨op, hgives, hop⟩ := h.line before _ after hcode (by simp)
  cases hgives with
  | jumpIf hleads =>
    have htarget := hleads.target hbound (extent_le_of_eq hcode) hsize
    exact .of_jumpIf hI hop htarget hJ htaken hpassed

end Placed

end Line

end Host

end AlphaMachine
