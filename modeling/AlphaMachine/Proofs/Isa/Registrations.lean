import Mathlib.Algebra.Group.Nat.Defs
import Mathlib.Data.List.Induction
import Mathlib.Data.List.Nodup
import AlphaMachine.Isa.DispatchTable

/-!
# Dispatch tables hold exactly what was registered

Building a table goes over the registrations twice: once to check the shape of each, and once to
put the entries in their places.  `Registration.Misshapen` says what a wrong shape is without
reference to the check, and `DispatchTable.Built` what the result is for any list of
registrations; one value for several functions is as many registrations.

The sub-tables are opened as the entries come.  `DispatchTable.WellFormed` is the invariant of
this: sub-tables are as long as their opcodes ask for, and no two opcodes share one.  Under it a
table is a function from keys to values, and `WellFormed.add_of_none` says how an entry changes
that function.

* `Instruction.key?_decode_eq_some_iff` : under which key an instruction word is looked up;
* `DispatchTable.entered` : the first pass stops at the first registration of a wrong shape;
* `DispatchTable.added` : the second stops at the first key registered before, and otherwise ends
  with a well-formed table that has the entries and no others;
* `DispatchTable.keys_ascending` : the keys of any table are listed in order;
* `DispatchTable.build_holds_registrations` : the result of building a table, with every index in
  range.
-/

namespace AlphaMachine

/-! ### Function codes -/

namespace Opcode

/-- A function code cut to the width of the codes of the opcode, when it has any. -/
def masked (op : Opcode) (code : Nat) : Option Nat :=
  op.functionBits.map fun width => code % 2 ^ width

/-- A function code that can select an operation: a PAL function is within the limit, and the
qualifiers of a floating operate function are defined. -/
def Admits (op : Opcode) (code : Nat) : Prop :=
  (op = .callPal → code ≤ palFunctionLimit) ∧
    (op.isFloatOperate = true → op.qualifiersDefined code = true)

variable {op : Opcode} {code : Nat}

theorem bits_inj {op op' : Opcode} (h : op.bits = op'.bits) : op = op' := by
  rw [← op.ofBits_bits, h, op'.ofBits_bits]

theorem qualifiersDefined_of_not_floatOperate (h : op.isFloatOperate = false) :
    op.qualifiersDefined code = true := by
  cases op <;> first | rfl | cases h

theorem functionBits_of_floatOperate (h : op.isFloatOperate = true) :
    op.functionBits = some 6 := by
  cases op <;> first | rfl | cases h

theorem masked_of_floatOperate (hfloat : op.isFloatOperate = true) :
    op.masked code = some (code % 0x40) := by
  rw [masked, functionBits_of_floatOperate hfloat]
  rfl

theorem masked_of_lt {width : Nat} (hbits : op.functionBits = some width)
    (hlt : code < 2 ^ width) : op.masked code = some code := by
  rw [masked, hbits, Option.map_some, Nat.mod_eq_of_lt hlt]

theorem admits_iff :
    op.Admits code ↔
      ¬(op = .callPal ∧ palFunctionLimit < code) ∧ op.qualifiersDefined code = true := by
  refine and_congr (by rw [not_and, Nat.not_lt]) ⟨fun h => ?_, fun h _ => h⟩
  cases hfloat : op.isFloatOperate with
  | false => exact qualifiersDefined_of_not_floatOperate hfloat
  | true => exact h hfloat

/-- The slot of a function code is the masked code, provided that the code is admitted. -/
theorem slot?_eq_some_iff {slot : Nat} :
    op.slot? code = some slot ↔ op.Admits code ∧ op.masked code = some slot := by
  rw [admits_iff]
  unfold slot? masked
  cases op.functionBits with
  | none => simp
  | some width =>
    simp only [Option.map_some, Nat.one_shiftLeft]
    split
    · next hpal => simp [hpal]
    · next hpal =>
      split
      · next hdefined => simp [hpal, hdefined]
      · next hdefined => simp [hdefined]

theorem slot?_of_not_admits (h : ¬op.Admits code) : op.slot? code = none :=
  Option.eq_none_iff_forall_ne_some.2 fun _ hslot => h (slot?_eq_some_iff.1 hslot).1

end Opcode

/-! ### Keys -/

namespace Key

/-- The key names a place of a table that has 64 places for opcodes and, for an opcode with
functions, one place for each function code of its width. -/
structure InRange (key : Key) : Prop where
  /-- The place of the opcode. -/
  opcode_lt : key.opcode.bits < 64
  /-- Opcodes with functions, and no others, have function places. -/
  isSome_function : key.function.isSome = key.opcode.functionBits.isSome
  /-- The place of the function. -/
  function_lt : ∀ width ∈ key.opcode.functionBits, ∀ slot ∈ key.function, slot < 2 ^ width

/-- The order of keys: by opcode, then by function. -/
def Before (a b : Key) : Prop :=
  a.opcode.bits < b.opcode.bits ∨
    a.opcode = b.opcode ∧ ∃ f ∈ a.function, ∃ g ∈ b.function, f < g

variable {a b key : Key}

theorem inRange_masked (op : Opcode) (code : Nat) : InRange ⟨op, op.masked code⟩ where
  opcode_lt := op.bits_lt
  isSome_function := by simp [Opcode.masked]
  function_lt := by
    rintro width hwidth slot hslot
    simp only [Opcode.masked, Option.mem_def] at hwidth hslot
    rw [hwidth] at hslot
    cases hslot
    exact Nat.mod_lt _ (Nat.two_pow_pos width)

theorem Before.ne (h : a.Before b) : a ≠ b := by
  rintro rfl
  rcases h with hlt | ⟨-, f, hf, g, hg, hlt⟩
  · exact Nat.lt_irrefl _ hlt
  · obtain rfl : f = g := Option.some.inj (hf.symm.trans hg)
    exact Nat.lt_irrefl _ hlt

end Key

/-! ### Registrations -/

namespace Registration

variable {α : Type} {r : Registration α} {err : TableError}

/-- The key that a registration names. -/
def key : Registration α → Key
  | .primary opcode _ => ⟨opcode, none⟩
  | .function opcode code _ => ⟨opcode, opcode.masked code⟩

/-- The value that a registration enters. -/
def value : Registration α → α
  | .primary _ value | .function _ _ value => value

/-- A registration of the wrong shape, with the complaint about it. -/
inductive Misshapen : Registration α → TableError → Prop where
  /-- The opcode has functions, and none is named. -/
  | functionRequired {opcode : Opcode} {value : α} :
      opcode.functionBits.isSome = true →
      Misshapen (.primary opcode value) (.functionRequired opcode)
  /-- The opcode has no functions, and one is named. -/
  | noFunctionField {opcode : Opcode} {code : Nat} {value : α} :
      opcode.functionBits = none →
      Misshapen (.function opcode code value) (.noFunctionField opcode)
  /-- The PAL function is above the limit. -/
  | palFunction {code : Nat} {value : α} :
      palFunctionLimit < code →
      Misshapen (.function .callPal code value) (.functionOutOfRange .callPal code)
  /-- The qualifiers of the floating operate function are not defined. -/
  | qualifiers {opcode : Opcode} {code : Nat} {value : α} :
      opcode.isFloatOperate = true → opcode.qualifiersDefined code = false →
      Misshapen (.function opcode code value) (.functionOutOfRange opcode code)

/-- A registration with nothing to complain about. -/
def WellShaped (r : Registration α) : Prop := ∀ err, ¬ r.Misshapen err

theorem entry_of_misshapen (h : r.Misshapen err) : r.entry = .error err := by
  cases h with
  | functionRequired hsome =>
    obtain ⟨width, hbits⟩ := Option.isSome_iff_exists.1 hsome
    simp only [entry, hbits]
  | noFunctionField hbits => simp only [entry, hbits]
  | palFunction hlimit =>
    have hslot : Opcode.slot? .callPal _ = none :=
      Opcode.slot?_of_not_admits fun h => Nat.not_le.2 hlimit (h.1 rfl)
    simp only [entry, hslot, Opcode.functionBits]
  | @qualifiers opcode code value hfloat hundefined =>
    have hslot : opcode.slot? code = none :=
      Opcode.slot?_of_not_admits fun h => by simp [h.2 hfloat] at hundefined
    simp only [entry, hslot, Opcode.functionBits_of_floatOperate hfloat]

theorem misshapen_or_entry (r : Registration α) :
    (∃ err, r.Misshapen err) ∨ r.key.InRange ∧ r.entry = .ok (r.key, r.value) := by
  cases r with
  | primary opcode value =>
    cases hbits : opcode.functionBits with
    | some width => exact .inl ⟨_, .functionRequired (by rw [hbits]; rfl)⟩
    | none =>
      refine .inr ⟨⟨opcode.bits_lt, by simp [key, hbits], by simp [key]⟩, ?_⟩
      simp only [entry, hbits]
      rfl
  | function opcode code value =>
    cases hbits : opcode.functionBits with
    | none => exact .inl ⟨_, .noFunctionField hbits⟩
    | some width =>
      by_cases hpal : opcode = .callPal ∧ palFunctionLimit < code
      · obtain ⟨rfl, hlimit⟩ := hpal
        exact .inl ⟨_, .palFunction hlimit⟩
      by_cases hfloat : opcode.isFloatOperate = true ∧ opcode.qualifiersDefined code = false
      · exact .inl ⟨_, .qualifiers hfloat.1 hfloat.2⟩
      have hadmits : opcode.Admits code :=
        ⟨fun h => Nat.not_lt.1 fun hlt => hpal ⟨h, hlt⟩,
          fun h => eq_true_of_ne_false fun hf => hfloat ⟨h, hf⟩⟩
      have hslot : opcode.slot? code = some (code % 2 ^ width) :=
        Opcode.slot?_eq_some_iff.2 ⟨hadmits, by rw [Opcode.masked, hbits]; rfl⟩
      refine .inr ⟨Key.inRange_masked opcode code, ?_⟩
      simp only [entry, key, Opcode.masked, hbits, hslot]
      rfl

theorem wellShaped_iff : r.WellShaped ↔ r.entry = .ok (r.key, r.value) := by
  constructor
  · intro h
    obtain ⟨err, herr⟩ | ⟨-, hentry⟩ := r.misshapen_or_entry
    · exact absurd herr (h err)
    · exact hentry
  · intro h err herr
    cases (entry_of_misshapen herr).symm.trans h

theorem WellShaped.inRange (h : r.WellShaped) : r.key.InRange := by
  obtain ⟨err, herr⟩ | ⟨hrange, -⟩ := r.misshapen_or_entry
  · exact absurd herr (h err)
  · exact hrange

end Registration

/-! ### Keys of instructions -/

namespace Instruction

/-- The key of an instruction, its function code cut to the width of its opcode. -/
def maskedKey (i : Instruction) : Key := ⟨i.opcode, i.functionCode.bind i.opcode.masked⟩

/-- An instruction whose function code, if it has one, can select an operation. -/
def Admitted (i : Instruction) : Prop := ∀ code ∈ i.functionCode, i.opcode.Admits code

theorem isSome_functionCode_decode (word : UInt32) :
    (decode word).functionCode.isSome = (decode word).opcode.functionBits.isSome := by
  unfold decode
  generalize Opcode.ofBits (bitField word 26 6) = opcode
  cases opcode <;> rfl

/-- **The key of an instruction word is its masked key, provided that it is admitted.** -/
theorem key?_decode_eq_some_iff {word : UInt32} {key : Key} :
    (decode word).key? = some key ↔ (decode word).Admitted ∧ (decode word).maskedKey = key := by
  unfold key? maskedKey Admitted
  cases hcode : (decode word).functionCode with
  | none => simp
  | some code =>
    obtain ⟨width, hwidth⟩ : ∃ width, (decode word).opcode.functionBits = some width := by
      rw [← Option.isSome_iff_exists, ← isSome_functionCode_decode, hcode]
      rfl
    simp only [Option.map_eq_some_iff, Opcode.slot?_eq_some_iff, Option.mem_def,
      Option.some.injEq, forall_eq', Option.bind_some, Opcode.masked, hwidth, Option.map_some]
    constructor
    · rintro ⟨slot, ⟨hadmits, rfl⟩, rfl⟩
      exact ⟨hadmits, rfl⟩
    · rintro ⟨hadmits, rfl⟩
      exact ⟨_, ⟨hadmits, rfl⟩, rfl⟩

theorem maskedKey_decode_inRange (word : UInt32) : (decode word).maskedKey.InRange := by
  unfold maskedKey
  cases hcode : (decode word).functionCode with
  | some code => exact Key.inRange_masked ..
  | none =>
    have hbits : (decode word).opcode.functionBits.isSome = false := by
      rw [← isSome_functionCode_decode, hcode]
      rfl
    exact ⟨Opcode.bits_lt _, hbits.symm, nofun⟩

end Instruction

/-! ### The first pass -/

namespace DispatchTable

variable {α : Type}

/-- What checking the shapes of a list of registrations gives. -/
inductive Entered (regs : List (Registration α)) : Except TableError (List (Key × α)) → Prop where
  /-- The complaint about the first registration of a wrong shape. -/
  | misshapen (before : List (Registration α)) (r : Registration α)
      (after : List (Registration α)) (err : TableError) :
      regs = before ++ r :: after → (∀ b ∈ before, b.WellShaped) → r.Misshapen err →
      Entered regs (.error err)
  /-- Every shape is right. -/
  | entries : (∀ r ∈ regs, r.WellShaped) → Entered regs (.ok (regs.map fun r => (r.key, r.value)))

theorem entered (regs : List (Registration α)) : Entered regs (regs.mapM Registration.entry) := by
  induction regs with
  | nil => exact .entries nofun
  | cons r rest ih =>
    rw [List.mapM_cons]
    obtain ⟨err, herr⟩ | ⟨-, hentry⟩ := r.misshapen_or_entry
    · rw [Registration.entry_of_misshapen herr]
      exact .misshapen [] r rest err rfl nofun herr
    · have hr : r.WellShaped := Registration.wellShaped_iff.2 hentry
      rw [hentry]
      generalize rest.mapM Registration.entry = res at ih
      cases ih with
      | misshapen before r' after err hsplit hbefore herr =>
        refine .misshapen (r :: before) r' after err (by rw [hsplit]; rfl) ?_ herr
        exact List.forall_mem_cons.2 ⟨hr, hbefore⟩
      | entries hrest => exact .entries (List.forall_mem_cons.2 ⟨hr, hrest⟩)

/-! ### Tables -/

section Cells

variable {t : DispatchTable α} {op op' : Opcode} {sub function : Nat}

theorem slot_empty (op : Opcode) : (empty : DispatchTable α).slot op = .empty :=
  Vector.getElem_replicate ..

theorem slot_setSlot (t : DispatchTable α) (op op' : Opcode) (s : Slot α) :
    (t.setSlot op s).slot op' = if op = op' then s else t.slot op' := by
  have hset : (t.setSlot op s).slot op' = if op.bits = op'.bits then s else t.slot op' :=
    Vector.getElem_set op.bits_lt op'.bits_lt
  rw [hset]
  exact if_congr ⟨Opcode.bits_inj, congrArg Opcode.bits⟩ rfl rfl

theorem cell?_setCell (h : (t.cell? sub function).isSome) (value : α) (sub' function' : Nat) :
    (t.setCell sub function value).cell? sub' function' =
      if sub = sub' ∧ function = function' then some (some value)
      else t.cell? sub' function' := by
  obtain ⟨cell, hcell⟩ := Option.isSome_iff_exists.1 h
  obtain ⟨row, hrow, hfunction⟩ := Option.bind_eq_some_iff.1 hcell
  obtain ⟨hsub, -⟩ := Array.getElem?_eq_some_iff.1 hrow
  obtain ⟨hlt, -⟩ := Array.getElem?_eq_some_iff.1 hfunction
  have hgetD : t.subs.getD sub #[] = row := by
    rw [Array.getD_eq_getD_getElem?, hrow, Option.getD_some]
  rw [cell?, setCell, hgetD, Array.getElem?_setIfInBounds]
  by_cases hsame : sub = sub'
  · rw [if_pos hsame, if_pos hsub, Option.bind_some, Array.getElem?_setIfInBounds, cell?, ← hsame,
      hrow, Option.bind_some]
    by_cases heq : function = function'
    · rw [if_pos heq, if_pos hlt, if_pos ⟨rfl, heq⟩]
    · rw [if_neg heq, if_neg fun h => heq h.2]
  · rw [if_neg hsame, if_neg fun h => hsame h.1]
    rfl

end Cells

/-- The sub-tables are those of opcodes with functions, one each, and have a place for each function
code. -/
structure WellFormed (t : DispatchTable α) : Prop where
  /-- A sub-table that is referred to exists and has the length that its opcode asks for. -/
  row : ∀ {op sub}, t.slot op = .functions sub →
    ∃ row width, t.subs[sub]? = some row ∧ op.functionBits = some width ∧ row.size = 2 ^ width
  /-- Only opcodes without functions have a value of their own. -/
  primary : ∀ {op value}, t.slot op = .primary value → op.functionBits = none
  /-- No two opcodes share a sub-table. -/
  inj : ∀ {op op' sub}, t.slot op = .functions sub → t.slot op' = .functions sub → op = op'

section Adding

variable {t : DispatchTable α} {op : Opcode} {width function : Nat}

theorem wellFormed_empty : (empty : DispatchTable α).WellFormed where
  row h := by rw [slot_empty] at h; cases h
  primary h := by rw [slot_empty] at h; cases h
  inj h := by rw [slot_empty] at h; cases h

theorem get?_empty (key : Key) : (empty : DispatchTable α).get? key = none := by
  rw [get?, slot_empty]

theorem get?_primary (t : DispatchTable α) (op : Opcode) :
    t.get? ⟨op, none⟩ = match t.slot op with
      | .primary value => some value
      | _ => none := by
  rw [get?]
  cases t.slot op <;> rfl

theorem get?_function (t : DispatchTable α) (op : Opcode) (function : Nat) :
    t.get? ⟨op, some function⟩ = match t.slot op with
      | .functions sub => (t.cell? sub function).join
      | _ => none := by
  rw [get?]
  cases t.slot op <;> rfl

theorem WellFormed.isSome_cell? (ht : t.WellFormed) {sub : Nat}
    (hslot : t.slot op = .functions sub) (hbits : op.functionBits = some width)
    (hlt : function < 2 ^ width) : (t.cell? sub function).isSome := by
  obtain ⟨row, width', hrow, hbits', hsize⟩ := ht.row hslot
  obtain rfl : width = width' := Option.some.inj (hbits.symm.trans hbits')
  rw [cell?, hrow, Option.bind_some, Array.getElem?_eq_getElem (by omega)]
  rfl

theorem slot_newSub (t : DispatchTable α) (op op' : Opcode) :
    (t.newSub op).slot op' = if op = op' then .functions t.subs.size else t.slot op' :=
  slot_setSlot t op op' _

theorem WellFormed.sub_lt (ht : t.WellFormed) {sub : Nat} (hslot : t.slot op = .functions sub) :
    sub < t.subs.size := by
  obtain ⟨row, -, hrow, -⟩ := ht.row hslot
  exact (Array.getElem?_eq_some_iff.1 hrow).1

theorem cell?_newSub {sub : Nat} (h : sub ≠ t.subs.size) :
    (t.newSub op).cell? sub function = t.cell? sub function := by
  rw [cell?, newSub, Array.getElem?_push, if_neg h]
  rfl

/-- A new sub-table has no entries. -/
theorem join_cell?_newSub (t : DispatchTable α) (op : Opcode) (function : Nat) :
    ((t.newSub op).cell? t.subs.size function).join = none := by
  rw [cell?, newSub, Array.getElem?_push, if_pos rfl, Option.bind_some, Array.getElem?_replicate]
  split <;> rfl

theorem WellFormed.newSub (ht : t.WellFormed) (hbits : op.functionBits = some width) :
    (t.newSub op).WellFormed where
  row {op' sub} h := by
    rw [slot_newSub] at h
    split at h
    · next hop =>
      cases h
      refine ⟨_, width, Array.getElem?_push_size, hop ▸ hbits, ?_⟩
      rw [Array.size_replicate, hbits, Option.map_some, Option.getD_some, Nat.one_shiftLeft]
    · obtain ⟨row, width', hrow, hrest⟩ := ht.row h
      refine ⟨row, width', ?_, hrest⟩
      exact (Array.getElem?_push.trans (if_neg (Nat.ne_of_lt (ht.sub_lt h)))).trans hrow
  primary {op' value} h := by
    rw [slot_newSub] at h
    split at h
    · cases h
    · exact ht.primary h
  inj {op' op'' sub} h h' := by
    rw [slot_newSub] at h h'
    split at h <;> split at h'
    · next hop hop' => exact hop.symm.trans hop'
    · cases h
      exact absurd (ht.sub_lt h') (Nat.lt_irrefl _)
    · cases h'
      exact absurd (ht.sub_lt h) (Nat.lt_irrefl _)
    · exact ht.inj h h'

theorem WellFormed.get?_newSub (ht : t.WellFormed) (hslot : t.slot op = .empty) (key : Key) :
    (t.newSub op).get? key = t.get? key := by
  rcases key with ⟨op', _ | function⟩
  · rw [get?_primary, get?_primary, slot_newSub]
    by_cases hop : op = op'
    · rw [if_pos hop, ← hop, hslot]
    · rw [if_neg hop]
  · rw [get?_function, get?_function, slot_newSub]
    by_cases hop : op = op'
    · rw [if_pos hop, ← hop, hslot]
      exact join_cell?_newSub t op function
    · rw [if_neg hop]
      cases hother : t.slot op' with
      | functions sub =>
        exact congrArg Option.join (cell?_newSub (Nat.ne_of_lt (ht.sub_lt hother)))
      | _ => rfl

/-- Opening a sub-table changes no value. -/
theorem WellFormed.openSub (ht : t.WellFormed) (hbits : op.functionBits = some width) :
    (t.openSub op).1.WellFormed ∧ (t.openSub op).1.slot op = .functions (t.openSub op).2 ∧
      ∀ key, (t.openSub op).1.get? key = t.get? key := by
  unfold DispatchTable.openSub
  cases hslot : t.slot op with
  | functions sub => exact ⟨ht, hslot, fun _ => rfl⟩
  | primary value => cases hbits.symm.trans (ht.primary hslot)
  | empty => exact ⟨ht.newSub hbits, by rw [slot_newSub, if_pos rfl], ht.get?_newSub hslot⟩

theorem WellFormed.setCell (ht : t.WellFormed) (sub function : Nat) (value : α) :
    (t.setCell sub function value).WellFormed where
  row {op sub'} h := by
    obtain ⟨row, width, hrow, hbits, hsize⟩ := ht.row h
    rw [DispatchTable.setCell, Array.getElem?_setIfInBounds]
    split
    · next hsame =>
      obtain ⟨hlt, -⟩ := Array.getElem?_eq_some_iff.1 hrow
      refine ⟨_, width, if_pos (hsame ▸ hlt), hbits, ?_⟩
      rw [Array.size_setIfInBounds, hsame, Array.getD_eq_getD_getElem?, hrow, Option.getD_some,
        hsize]
    · exact ⟨row, width, hrow, hbits, hsize⟩
  primary h := ht.primary h
  inj h h' := ht.inj h h'

/-- A value is put under one key of an opcode with functions. -/
theorem WellFormed.get?_setCell (ht : t.WellFormed) {sub : Nat}
    (hslot : t.slot op = .functions sub) (hcell : (t.cell? sub function).isSome) (value : α)
    (key : Key) :
    (t.setCell sub function value).get? key =
      if key = ⟨op, some function⟩ then some value else t.get? key := by
  have hslots (op' : Opcode) : (t.setCell sub function value).slot op' = t.slot op' := rfl
  rcases key with ⟨op', _ | function'⟩
  · rw [if_neg (by simp), get?_primary, get?_primary, hslots]
  · rw [get?_function, get?_function, hslots]
    cases hslot' : t.slot op' with
    | functions sub' =>
      have hsame : sub = sub' ↔ op' = op := by
        constructor
        · rintro rfl
          exact ht.inj hslot' hslot
        · rintro rfl
          cases hslot.symm.trans hslot'
          rfl
      dsimp only
      rw [cell?_setCell hcell, apply_ite Option.join]
      exact if_congr (by simp [hsame, eq_comm]) rfl rfl
    | _ =>
      have hne : op' ≠ op := by
        rintro rfl
        cases hslot.symm.trans hslot'
      rw [if_neg (by simp [hne])]

theorem WellFormed.setSlot (ht : t.WellFormed) (hbits : op.functionBits = none) (value : α) :
    (t.setSlot op (.primary value)).WellFormed where
  row {op' sub} h := by
    rw [slot_setSlot] at h
    split at h
    · cases h
    · exact ht.row h
  primary {op' value'} h := by
    rw [slot_setSlot] at h
    split at h
    · next hop => exact hop ▸ hbits
    · exact ht.primary h
  inj {op' op'' sub} h h' := by
    rw [slot_setSlot] at h h'
    split at h <;> split at h'
    · cases h
    · cases h
    · cases h'
    · exact ht.inj h h'

/-- A value is put under an opcode without functions. -/
theorem get?_setSlot (hslot : t.slot op = .empty) (value : α) (key : Key) :
    (t.setSlot op (.primary value)).get? key =
      if key = ⟨op, none⟩ then some value else t.get? key := by
  rcases key with ⟨op', _ | function⟩
  · rw [get?_primary, get?_primary, slot_setSlot]
    by_cases hop : op = op'
    · rw [if_pos hop, if_pos (by rw [hop])]
    · rw [if_neg hop, if_neg fun h => hop (congrArg Key.opcode h).symm]
  · have hne : (⟨op', some function⟩ : Key) ≠ ⟨op, none⟩ := fun h => nomatch congrArg Key.function h
    rw [get?_function, get?_function, slot_setSlot, if_neg hne]
    by_cases hop : op = op'
    · rw [if_pos hop, ← hop, hslot]
    · rw [if_neg hop]
      rfl

/-- A value can be entered under a key that has none. -/
theorem WellFormed.add_of_none (ht : t.WellFormed) {key : Key} (hkey : key.InRange)
    (hnew : t.get? key = none) (value : α) :
    ∃ t', t.add (key, value) = .ok t' ∧ t'.WellFormed ∧
      ∀ key', t'.get? key' = if key' = key then some value else t.get? key' := by
  obtain ⟨op, _ | function⟩ := key
  · have hbits : op.functionBits = none := by simpa using hkey.isSome_function.symm
    cases hslot : t.slot op with
    | empty =>
      refine ⟨_, ?_, ht.setSlot hbits value, get?_setSlot hslot value⟩
      simp only [DispatchTable.add, hslot]
    | primary old =>
      rw [get?_primary, hslot] at hnew
      cases hnew
    | functions sub =>
      obtain ⟨-, width, -, hwidth, -⟩ := ht.row hslot
      cases hbits.symm.trans hwidth
  · obtain ⟨width, hbits⟩ : ∃ width, op.functionBits = some width :=
      Option.isSome_iff_exists.1 hkey.isSome_function.symm
    have hlt := hkey.function_lt width hbits function rfl
    obtain ⟨hopened, hslot, hget⟩ := ht.openSub hbits
    have hcell := hopened.isSome_cell? hslot hbits hlt
    have hnone : ((t.openSub op).1.cell? (t.openSub op).2 function).join = none := by
      rw [← hnew, ← hget, get?_function, hslot]
    refine ⟨_, ?_, hopened.setCell (t.openSub op).2 function value, fun key' => ?_⟩
    · obtain ⟨cell, hcell⟩ := Option.isSome_iff_exists.1 hcell
      rw [hcell] at hnone
      obtain rfl : cell = none := hnone
      simp only [DispatchTable.add, hcell]
    · rw [hopened.get?_setCell hslot hcell, hget]

/-- A key that has a value is refused. -/
theorem WellFormed.add_of_isSome (ht : t.WellFormed) {key : Key} (hkey : key.InRange)
    (hold : (t.get? key).isSome) (value : α) : t.add (key, value) = .error (.duplicate key) := by
  obtain ⟨op, _ | function⟩ := key
  · rw [get?_primary] at hold
    cases hslot : t.slot op with
    | empty => simp [hslot] at hold
    | _ => simp only [DispatchTable.add, hslot]
  · obtain ⟨width, hbits⟩ : ∃ width, op.functionBits = some width :=
      Option.isSome_iff_exists.1 hkey.isSome_function.symm
    obtain ⟨-, hslot, hget⟩ := ht.openSub hbits
    rw [← hget, get?_function, hslot] at hold
    obtain ⟨old, hcell⟩ := Option.isSome_iff_exists.1 hold
    simp only [DispatchTable.add, Option.join_eq_some_iff.1 hcell]

end Adding

/-! ### The second pass -/

/-- What adding a list of entries to the empty table gives. -/
inductive Added (l : List (Key × α)) : Except TableError (DispatchTable α) → Prop where
  /-- The first key that was there before. -/
  | duplicate (before : List (Key × α)) (e : Key × α) (after : List (Key × α)) :
      l = before ++ e :: after → (before.map Prod.fst).Nodup → e.1 ∈ before.map Prod.fst →
      Added l (.error (.duplicate e.1))
  /-- All keys are different. -/
  | table (t : DispatchTable α) :
      (l.map Prod.fst).Nodup → t.WellFormed →
      (∀ key value, t.get? key = some value ↔ (key, value) ∈ l) → Added l (.ok t)

theorem isSome_get?_iff {t : DispatchTable α} {l : List (Key × α)}
    (h : ∀ key value, t.get? key = some value ↔ (key, value) ∈ l) (key : Key) :
    (t.get? key).isSome ↔ key ∈ l.map Prod.fst := by
  simp [Option.isSome_iff_exists, h]

-- By induction from the end of the list, since the table carries what was added so far.
theorem added {l : List (Key × α)} (hl : ∀ e ∈ l, e.1.InRange) :
    Added l (l.foldlM add empty) := by
  induction l using List.reverseRecOn with
  | nil =>
    refine .table empty .nil wellFormed_empty fun key value => ?_
    simp [get?_empty]
  | append_singleton l e ih =>
    have hall := ih fun d hd => hl d (List.mem_append_left [e] hd)
    have he : e.1.InRange := hl e (by simp)
    simp only [List.foldlM_append, List.foldlM_cons, List.foldlM_nil, bind_pure]
    generalize l.foldlM add empty = res at hall
    cases hall with
    | duplicate before d after hsplit hnodup hd =>
      exact .duplicate before d (after ++ [e]) (by simp [hsplit]) hnodup hd
    | table t hnodup ht hget =>
      by_cases hold : e.1 ∈ l.map Prod.fst
      · have hadd : (.ok t >>= fun t : DispatchTable α => t.add e) = .error (.duplicate e.1) :=
          ht.add_of_isSome he ((isSome_get?_iff hget _).2 hold) e.2
        rw [hadd]
        exact .duplicate l e [] rfl hnodup hold
      · have hnone : t.get? e.1 = none := by
          rwa [← isSome_get?_iff hget, Option.not_isSome_iff_eq_none] at hold
        obtain ⟨t', hadd, ht', hget'⟩ := ht.add_of_none he hnone e.2
        have hadd : (.ok t >>= fun t : DispatchTable α => t.add e) = .ok t' := hadd
        rw [hadd]
        refine .table t' ?_ ht' fun key value => ?_
        · rw [List.map_append]
          exact hnodup.append (List.nodup_singleton _) (by simpa using hold)
        · rw [hget', List.mem_append, List.mem_singleton, ← hget]
          split
          · next hkey => subst hkey; simp [hnone, Prod.ext_iff, eq_comm]
          · next hkey => simp [hkey, Prod.ext_iff]

/-! ### Keys -/

theorem getElem?_row (t : DispatchTable α) (sub function : Nat) :
    (t.subs.getD sub #[])[function]? = t.cell? sub function := by
  rw [cell?, Array.getD_eq_getD_getElem?]
  cases t.subs[sub]? <;> rfl

theorem mem_keysOf_iff {t : DispatchTable α} {op : Opcode} {key : Key} :
    key ∈ t.keysOf op ↔ key.opcode = op ∧ (t.get? key).isSome := by
  obtain ⟨op', function⟩ := key
  unfold keysOf
  by_cases hop : op' = op
  · subst hop
    cases hslot : t.slot op' with
    | empty => simp [get?, hslot]
    | primary value => cases function <;> simp [get?, hslot]
    | functions sub =>
      cases function with
      | none => simp [get?, hslot]
      | some function =>
        simp only [List.mem_map, List.mem_filter, Prod.exists, Key.mk.injEq, Option.some.injEq,
          true_and, get?_function, hslot, ← getElem?_row]
        constructor
        · rintro ⟨cell, _, ⟨hcell, hsome⟩, rfl⟩
          rw [List.mk_mem_zipIdx_iff_getElem?, Array.getElem?_toList] at hcell
          rwa [hcell, Option.join_some]
        · intro hsome
          cases hcell : (t.subs.getD sub #[])[function]? with
          | none =>
            rw [hcell] at hsome
            cases hsome
          | some cell =>
            rw [hcell, Option.join_some] at hsome
            refine ⟨cell, function, ⟨?_, hsome⟩, rfl⟩
            rw [List.mk_mem_zipIdx_iff_getElem?, Array.getElem?_toList, hcell]
  · cases t.slot op <;> simp [hop, Ne.symm hop]

theorem mem_keys_iff {t : DispatchTable α} {key : Key} : key ∈ t.keys ↔ (t.get? key).isSome := by
  rw [keys, List.mem_flatMap]
  constructor
  · rintro ⟨bits, -, hkey⟩
    exact (mem_keysOf_iff.1 hkey).2
  · intro hkey
    refine ⟨key.opcode.bits, List.mem_range.2 key.opcode.bits_lt, mem_keysOf_iff.2 ⟨?_, hkey⟩⟩
    rw [Opcode.ofBits_bits]

theorem keysOf_ascending (t : DispatchTable α) (op : Opcode) :
    (t.keysOf op).Pairwise Key.Before := by
  unfold keysOf
  cases t.slot op with
  | empty => exact .nil
  | primary value => exact List.pairwise_singleton ..
  | functions sub =>
    have hnumbers : ((t.subs.getD sub #[]).toList.zipIdx).Pairwise fun e e' => e.2 < e'.2 := by
      rw [← List.pairwise_map, List.zipIdx_map_snd]
      exact List.pairwise_lt_range' 1
    refine List.pairwise_map.2 ((hnumbers.filter _).imp fun hlt => ?_)
    exact .inr ⟨rfl, _, rfl, _, rfl, hlt⟩

theorem keys_ascending (t : DispatchTable α) : t.keys.Pairwise Key.Before := by
  refine List.pairwise_flatMap.2 ⟨fun bits _ => t.keysOf_ascending _, ?_⟩
  refine List.pairwise_lt_range.imp_of_mem fun hm hn hlt key hkey key' hkey' => .inl ?_
  rw [(mem_keysOf_iff.1 hkey).1, (mem_keysOf_iff.1 hkey').1,
    Opcode.bits_ofBits (List.mem_range.1 hm), Opcode.bits_ofBits (List.mem_range.1 hn)]
  exact hlt

/-! ### The result -/

/-- The sub-table of the opcode, if there is one, has a place for the function of the key. -/
def Covers (t : DispatchTable α) (key : Key) : Prop :=
  ∀ sub, t.slot key.opcode = .functions sub →
    ∃ function ∈ key.function, (t.cell? sub function).isSome = true

/-- A sub-table that is opened for the key has a place for its function. -/
def HasRoom (t : DispatchTable α) (key : Key) : Prop :=
  ∀ function ∈ key.function,
    ((t.openSub key.opcode).1.cell? (t.openSub key.opcode).2 function).isSome = true

theorem WellFormed.covers {t : DispatchTable α} (ht : t.WellFormed) {key : Key}
    (hkey : key.InRange) : t.Covers key := by
  intro sub hslot
  obtain ⟨-, width, -, hbits, -⟩ := ht.row hslot
  obtain ⟨function, hfunction⟩ : ∃ function, key.function = some function := by
    rw [← Option.isSome_iff_exists, hkey.isSome_function, hbits]
    rfl
  have hlt := hkey.function_lt width hbits function hfunction
  exact ⟨function, hfunction, ht.isSome_cell? hslot hbits hlt⟩

theorem WellFormed.hasRoom {t : DispatchTable α} (ht : t.WellFormed) {key : Key}
    (hkey : key.InRange) : t.HasRoom key := by
  intro function hfunction
  obtain ⟨width, hbits⟩ : ∃ width, key.opcode.functionBits = some width := by
    rw [← Option.isSome_iff_exists, ← hkey.isSome_function, hfunction]
    rfl
  obtain ⟨hopened, hslot, -⟩ := ht.openSub hbits
  exact hopened.isSome_cell? hslot hbits (hkey.function_lt width hbits function hfunction)

/-- A table holds exactly the registrations of a list. -/
structure Holds (t : DispatchTable α) (regs : List (Registration α)) : Prop extends
    t.WellFormed where
  /-- The registered keys have the registered values. -/
  get?_eq_some_iff : ∀ key value,
    t.get? key = some value ↔ ∃ r ∈ regs, r.key = key ∧ r.value = value
  /-- The keys are listed once each, ascending. -/
  keys_ascending : t.keys.Pairwise Key.Before
  /-- The keys are those registered. -/
  mem_keys_iff : ∀ key, key ∈ t.keys ↔ ∃ r ∈ regs, r.key = key
  /-- There is an entry for each registration. -/
  size_eq : t.size = regs.length
  /-- An instruction word has the value registered under its masked key, if there is one and the
  function code of the word is admitted, and no value otherwise. -/
  lookup_eq_some_iff : ∀ (word : UInt32) (value : α),
    t.lookup (.decode word) = some value ↔
      (Instruction.decode word).Admitted ∧
        ∃ r ∈ regs, r.key = (Instruction.decode word).maskedKey ∧ r.value = value
  /-- Looking up an instruction word stays within the sub-tables. -/
  covers : ∀ word, ∀ key ∈ (Instruction.decode word).key?, t.Covers key

theorem WellFormed.holds {t : DispatchTable α} (ht : t.WellFormed) {regs : List (Registration α)}
    (hnodup : (regs.map Registration.key).Nodup)
    (hget : ∀ key value, t.get? key = some value ↔ ∃ r ∈ regs, r.key = key ∧ r.value = value) :
    t.Holds regs := by
  have hkeys (key : Key) : key ∈ t.keys ↔ ∃ r ∈ regs, r.key = key := by
    rw [mem_keys_iff, Option.isSome_iff_exists]
    simp only [hget]
    constructor
    · rintro ⟨_, r, hr, hkey, -⟩
      exact ⟨r, hr, hkey⟩
    · rintro ⟨r, hr, hkey⟩
      exact ⟨_, r, hr, hkey, rfl⟩
  have hperm : t.keys.Perm (regs.map Registration.key) := by
    refine (List.perm_ext_iff_of_nodup (t.keys_ascending.imp Key.Before.ne) hnodup).2 fun key => ?_
    rw [hkeys, List.mem_map]
  exact {
    toWellFormed := ht
    get?_eq_some_iff := hget
    keys_ascending := t.keys_ascending
    mem_keys_iff := hkeys
    size_eq := by rw [size, hperm.length_eq, List.length_map]
    lookup_eq_some_iff := fun word value => by
      simp only [lookup, Option.bind_eq_some_iff, Instruction.key?_decode_eq_some_iff, hget]
      constructor
      · rintro ⟨_, ⟨hadmitted, rfl⟩, hreg⟩
        exact ⟨hadmitted, hreg⟩
      · rintro ⟨hadmitted, hreg⟩
        exact ⟨_, ⟨hadmitted, rfl⟩, hreg⟩
    covers := fun word key hkey => by
      obtain ⟨-, rfl⟩ := Instruction.key?_decode_eq_some_iff.1 hkey
      exact ht.covers (Instruction.maskedKey_decode_inRange word) }

/-- What building a table from a list of registrations gives. -/
inductive Built (regs : List (Registration α)) : Except TableError (DispatchTable α) → Prop where
  /-- Some registration has the wrong shape: the complaint about the first such. -/
  | misshapen (before : List (Registration α)) (r : Registration α)
      (after : List (Registration α)) (err : TableError) :
      regs = before ++ r :: after → (∀ b ∈ before, b.WellShaped) → r.Misshapen err →
      Built regs (.error err)
  /-- All shapes are right, and some key is registered again: the first such. -/
  | duplicate (before : List (Registration α)) (r : Registration α)
      (after : List (Registration α)) :
      (∀ r ∈ regs, r.WellShaped) → regs = before ++ r :: after →
      (before.map Registration.key).Nodup → r.key ∈ before.map Registration.key →
      Built regs (.error (.duplicate r.key))
  /-- All shapes are right and all keys different: a table that holds the registrations. -/
  | table (t : DispatchTable α) :
      (∀ r ∈ regs, r.WellShaped) → (regs.map Registration.key).Nodup → t.Holds regs →
      Built regs (.ok t)

theorem built (regs : List (Registration α)) : Built regs (build regs) := by
  have hentered := entered regs
  unfold build
  generalize regs.mapM Registration.entry = res at hentered
  cases hentered with
  | misshapen before r after err hsplit hbefore herr =>
    exact .misshapen before r after err hsplit hbefore herr
  | entries hregs =>
    have hadded := added (l := regs.map fun r => (r.key, r.value))
      (List.forall_mem_map.2 fun r hr => (hregs r hr).inRange)
    change Built regs ((regs.map fun r => (r.key, r.value)).foldlM add empty)
    generalize (regs.map fun r => (r.key, r.value)).foldlM add empty = res at hadded
    cases hadded with
    | duplicate before e after hsplit hnodup he =>
      obtain ⟨first, rest, rfl, rfl, hrest⟩ := List.map_eq_append_iff.1 hsplit
      obtain ⟨r, last, rfl, rfl, -⟩ := List.map_eq_cons_iff.1 hrest
      rw [List.map_map] at hnodup he
      exact .duplicate first r last hregs rfl hnodup he
    | table t hnodup ht hget =>
      rw [List.map_map] at hnodup
      refine .table t hregs hnodup (ht.holds hnodup fun key value => ?_)
      simp [hget]

theorem of_build_eq_ok {regs : List (Registration α)} {t : DispatchTable α}
    (h : build regs = .ok t) : t.Holds regs := by
  have hbuilt := h ▸ built regs
  cases hbuilt with
  | table _ _ _ ht => exact ht

theorem holds_of_build {regs : List (Registration α)}
    (h : (build regs).toOption.isSome = true) : ((build regs).toOption.getD .empty).Holds regs := by
  cases hb : build regs with
  | error err =>
    rw [hb] at h
    cases h
  | ok t => exact of_build_eq_ok hb

/-- Two tables whose registrations correspond have corresponding values. -/
theorem Holds.get?_map {β : Type} {f : α → β} {regs : List (Registration α)}
    {regs' : List (Registration β)} {t : DispatchTable α} {t' : DispatchTable β}
    (ht : t.Holds regs) (ht' : t'.Holds regs')
    (hperm : (regs'.map fun r => (r.key, r.value)).Perm (regs.map fun r => (r.key, f r.value)))
    (key : Key) : t'.get? key = (t.get? key).map f := by
  ext value
  have hmem : (∃ r ∈ regs', r.key = key ∧ r.value = value) ↔
      ∃ r ∈ regs, r.key = key ∧ f r.value = value := by
    simpa using hperm.mem_iff (a := (key, value))
  simp only [Option.map_eq_some_iff, ht.get?_eq_some_iff, ht'.get?_eq_some_iff, hmem]
  constructor
  · rintro ⟨r, hr, hkey, hvalue⟩
    exact ⟨r.value, ⟨r, hr, hkey, rfl⟩, hvalue⟩
  · rintro ⟨_, ⟨r, hr, hkey, rfl⟩, hvalue⟩
    exact ⟨r, hr, hkey, hvalue⟩

/-- **A dispatch table holds exactly what was registered.**  Building reports the first
registration of a wrong shape, or else the first key registered again, or else gives a table that
holds the registrations.  Whenever an entry is put into a sub-table, the place is there. -/
theorem build_holds_registrations (regs : List (Registration α)) :
    Built regs (build regs) ∧
      ∀ before r after t, regs = before ++ r :: after → r.WellShaped → build before = .ok t →
        t.HasRoom r.key :=
  ⟨built regs, fun _ _ _ _ _ hr ht => (of_build_eq_ok ht).hasRoom hr.inRange⟩

/-- The PAL call 0x183 has the masked function of the registered call 0x83 and is not found: only
function codes up to the limit select a PAL operation. -/
theorem pal_function_above_limit_not_found :
    (Registration.function .callPal 0x83 ()).key = (Instruction.decode 0x183).maskedKey ∧
      (Instruction.decode 0x183).opcode.isFloatOperate = false ∧
      (build [.function .callPal 0x83 ()]).toOption.map
        (fun t => (t.lookup (.decode 0x83), t.lookup (.decode 0x183))) = some (some (), none) := by
  decide +kernel

end DispatchTable

end AlphaMachine
