import AlphaMachine.Isa.Assembly
import AlphaMachine.Proofs.Bits.Packing

/-!
# Assembling and decoding

An assembled word is the bit string of its fields, one after the other (`Assembly.toNat_joined`).
So a field can be read back at its place (`Assembly.bitField_joined`), and the fields that are cut
out of a word make up the word again (`Assembly.joined_cut`).

A `Statement` is a call of one of the builders.  What it asks of its fields is written down in the
order of the word (`Statement.demands`), apart from the builders:

* `Statement.word_eq` : a builder reports the first demand that fails, and packs the fields if there
  is none; the fields always make up a word (`Statement.width_fields`);
* `Statement.matches_decode` : decoding gives back the statement that was assembled;
* `Statement.word_statement_decode` : assembling the fields of a decoded word gives back the word,
  up to three bits that register operands leave unused.

`Statement.assembly_inverse` puts the two directions together.
-/

namespace AlphaMachine

/-! ### Fields of a word -/

theorem bitField_eq (word : UInt32) (lsb width : Nat) :
    bitField word lsb width = word.toNat / 2 ^ lsb % 2 ^ width := by
  rw [bitField, Nat.shiftRight_eq_div_pow, Nat.one_shiftLeft]

theorem bitField_lt (word : UInt32) (lsb width : Nat) : bitField word lsb width < 2 ^ width := by
  rw [bitField_eq]
  exact Nat.mod_lt _ (Nat.two_pow_pos width)

theorem bitField_and (a b : UInt32) (lsb width : Nat) :
    bitField (a &&& b) lsb width = bitField a lsb width &&& bitField b lsb width := by
  simp only [bitField, Nat.one_shiftLeft, UInt32.toNat_and, Nat.shiftRight_and_distrib,
    Nat.and_mod_two_pow]

namespace Assembly

/-- The bits of a list of fields. -/
def layout (fields : List Field) : List Bool := fields.flatMap fun f => Bits.low f.1 f.2

theorem layout_append (fields rest : List Field) :
    layout (fields ++ rest) = layout fields ++ layout rest := List.flatMap_append

theorem layout_cons (f : Field) (rest : List Field) :
    layout (f :: rest) = Bits.low f.1 f.2 ++ layout rest := List.flatMap_cons

theorem width_cons (f : Field) (rest : List Field) : width (f :: rest) = f.2 + width rest := rfl

theorem length_layout (fields : List Field) : (layout fields).length = width fields := by
  induction fields with
  | nil => rfl
  | cons f rest ih =>
    rw [layout_cons, List.length_append, ih, Bits.length_low, width_cons]

theorem bigEndian_eq_number (bytes : Array UInt8) :
    bigEndian bytes = Bits.number (bytes.toList.flatMap fun b => Bits.low b.toNat 8) := by
  rw [bigEndian, ← Array.foldl_toList]
  induction bytes.toList using List.reverseRecOn with
  | nil => rfl
  | append_singleton l b ih =>
    rw [List.foldl_append, List.flatMap_append, List.flatMap_singleton, Bits.number_append_low,
      ← ih, Nat.mod_eq_of_lt b.toNat_lt]
    rfl

/-- The word that fields make up, the first one at the top. -/
def joined (fields : List Field) : UInt32 :=
  .ofNat (bigEndian (Packer.empty.writeFields fields).finish)

/-- Fields of 32 bits fill four bytes. -/
theorem bits_writeFields {fields : List Field} (h : width fields = 32) :
    (Packer.empty.writeFields fields).finish.toList.flatMap (fun b => Bits.low b.toNat 8) =
        layout fields ∧
      (Packer.empty.writeFields fields).finish.size = 4 := by
  have hlength : (layout fields).length = 32 := (length_layout fields).trans h
  obtain ⟨hbits, hpending⟩ :=
    Packer.bits_writeFields (p := .empty) (Nat.zero_lt_succ 7) fields
  have hlayout : (Packer.empty.writeFields fields).bits = layout fields := hbits
  have hwhole : (Packer.empty.writeFields fields).bits.length % 8 = 0 := by
    rw [hlayout, hlength]
  have hsize := Packer.size_finish hpending hwhole
  rw [hlayout, hlength] at hsize
  exact ⟨(Packer.bits_finish hpending hwhole).trans hlayout, by omega⟩

/-- The fields of a word are packed. -/
theorem pack_eq {fields : List Field} (h : width fields = 32) :
    pack fields = .ok (joined fields) := if_pos ⟨h, (bits_writeFields h).2⟩

/-- **A packed word is the bit string of its fields.** -/
theorem toNat_joined {fields : List Field} (h : width fields = 32) :
    (joined fields).toNat = Bits.number (layout fields) := by
  have hlt := Bits.number_lt (layout fields)
  rw [length_layout, h] at hlt
  rw [joined, bigEndian_eq_number, (bits_writeFields h).1, UInt32.toNat_ofNat',
    Nat.mod_eq_of_lt hlt]

/-- A field of a packed word is read back at its place. -/
theorem bitField_joined {before after : List Field} {value count : Nat}
    (h : width (before ++ (value, count) :: after) = 32) :
    bitField (joined (before ++ (value, count) :: after)) (width after) count =
      value % 2 ^ count := by
  have hlt := Bits.number_lt (layout after)
  rw [length_layout] at hlt
  rw [bitField_eq, toNat_joined h, layout_append, layout_cons, ← List.append_assoc,
    Bits.number_append, length_layout, Nat.mul_comm, Nat.mul_add_div (Nat.two_pow_pos _),
    Nat.div_eq_of_lt hlt, Nat.add_zero, Bits.number_append_low, Nat.mul_comm,
    Nat.mul_add_mod, Nat.mod_mod]

/-- Consecutive fields of a word, by their widths, the last one at the bottom. -/
def cut (word : UInt32) : List Nat → List Field
  | [] => []
  | count :: rest => (bitField word rest.sum count, count) :: cut word rest

theorem width_cut (word : UInt32) (widths : List Nat) : width (cut word widths) = widths.sum := by
  induction widths with
  | nil => rfl
  | cons count rest ih => rw [cut, width_cons, ih, List.sum_cons]

theorem layout_cut (word : UInt32) (widths : List Nat) :
    layout (cut word widths) = Bits.low word.toNat widths.sum := by
  induction widths with
  | nil => rfl
  | cons count rest ih =>
    rw [cut, layout_cons, ih, bitField, Nat.one_shiftLeft, Bits.low_mod (Nat.le_refl count),
      Bits.low_append, List.sum_cons]

/-- **The fields that are cut out of a word make up the word.** -/
theorem joined_cut (word : UInt32) {widths : List Nat} (h : widths.sum = 32) :
    joined (cut word widths) = word := by
  rw [← UInt32.toNat_inj, toNat_joined ((width_cut word widths).trans h), layout_cut, h,
    Bits.number_low, Nat.mod_eq_of_lt word.toNat_lt]

/-! ### Demands -/

/-- What a builder asks of a field. -/
inductive Demand where
  /-- The index of a register is below 32. -/
  | register (index : Nat)
  /-- A function fits into its width. -/
  | function (value width : Nat)
  /-- A displacement fits into 21 bits with its sign. -/
  | displacement (value : Int)

namespace Demand

/-- The field is within its range. -/
def Holds : Demand → Prop
  | .register index => index < 32
  | .function value width => value < 2 ^ width
  | .displacement value => -2 ^ 20 ≤ value ∧ value < 2 ^ 20

instance : DecidablePred Holds
  | .register index => inferInstanceAs (Decidable (index < 32))
  | .function value width => inferInstanceAs (Decidable (value < 2 ^ width))
  | .displacement value => inferInstanceAs (Decidable (-2 ^ 20 ≤ value ∧ value < 2 ^ 20))

/-- The error that names the field. -/
def error : Demand → AsmError
  | .register index => .register index
  | .function value width => .unsigned "function" value width
  | .displacement value => .signed "displacement" value 21

end Demand

/-- The error of the first demand that fails, or else the result. -/
def report {α : Type} : List Demand → α → Except AsmError α
  | [], result => .ok result
  | d :: rest, result => if d.Holds then report rest result else .error d.error

section Report

variable {α : Type}

theorem report_of_holds {demands : List Demand} (h : ∀ d ∈ demands, d.Holds) (result : α) :
    report demands result = .ok result := by
  induction demands with
  | nil => rfl
  | cons d rest ih =>
    rw [report, if_pos (h d List.mem_cons_self)]
    exact ih fun d' hd' => h d' (List.mem_cons_of_mem _ hd')

theorem report_of_fails {before after : List Demand} {d : Demand} (h : ∀ d ∈ before, d.Holds)
    (hd : ¬ d.Holds) (result : α) : report (before ++ d :: after) result = .error d.error := by
  induction before with
  | nil => exact if_neg hd
  | cons d' rest ih =>
    rw [List.cons_append, report, if_pos (h d' List.mem_cons_self)]
    exact ih fun x hx => h x (List.mem_cons_of_mem _ hx)

theorem holds_of_report {demands : List Demand} {result result' : α}
    (h : report demands result = .ok result') : ∀ d ∈ demands, d.Holds := by
  induction demands with
  | nil => exact fun d hd => absurd hd List.not_mem_nil
  | cons d rest ih =>
    rw [report] at h
    split at h
    · next hd =>
      intro d' hd'
      rcases List.mem_cons.1 hd' with rfl | hrest
      · exact hd
      · exact ih h d' hrest
    · cases h

-- The builders look at their fields one by one.
theorem ite_bind (c : Prop) [Decidable c] (f : Field) (e : AsmError)
    (k : Field → Except AsmError α) :
    ((if c then .ok f else .error e : Except AsmError Field) >>= k) =
      if c then k f else .error e := by
  split <;> rfl

theorem reg_bind (index : Nat) (k : Field → Except AsmError α) :
    (reg index >>= k) =
      if (Demand.register index).Holds then k (index, 5) else .error (.register index) :=
  ite_bind ..

theorem unsigned_bind (value width : Nat) (k : Field → Except AsmError α) :
    (unsigned "function" value width >>= k) =
      if (Demand.function value width).Holds then k (value, width)
      else .error (.unsigned "function" value width) := by
  rw [unsigned, Nat.one_shiftLeft]
  exact ite_bind ..

theorem signed_bind (value : Int) (k : Field → Except AsmError α) :
    (signed "displacement" value 21 >>= k) =
      if (Demand.displacement value).Holds then k ((value % 2 ^ 21).toNat, 21)
      else .error (.signed "displacement" value 21) :=
  ite_bind ..

end Report

end Assembly

/-! ### Statements -/

/-- A call of one of the builders. -/
inductive Statement where
  /-- Integer operate with a register. -/
  | operate (op : Opcode) (ra rb function rc : Nat)
  /-- Integer operate with a literal. -/
  | operateLiteral (op : Opcode) (ra : Nat) (literal : UInt8) (function rc : Nat)
  /-- Floating operate. -/
  | floatOperate (op : Opcode) (fa fb function fc : Nat)
  /-- Memory format. -/
  | memory (op : Opcode) (ra rb : Nat) (displacement : Int16)
  /-- The barrier group. -/
  | misc (function ra rb : Nat)
  /-- The jump group. -/
  | jump (function ra rb : Nat)
  /-- Branch format. -/
  | branch (op : Opcode) (ra : Nat) (displacement : Int)
  /-- A PAL call. -/
  | callPal (function : Nat)

/-- The builder call that names the fields of an instruction. -/
def Instruction.statement : Instruction → Statement
  | .operate op ra (.register rb) function rc => .operate op ra rb function rc
  | .operate op ra (.literal value) function rc => .operateLiteral op ra value function rc
  | .floatOperate op fa fb function fc => .floatOperate op fa fb function fc
  | .memory op ra rb displacement => .memory op ra rb displacement
  | .branch op ra displacement => .branch op ra displacement
  | .pal function => .callPal function

namespace Statement

open Assembly

/-- The word that the builder gives, or its error. -/
def word : Statement → Except AsmError UInt32
  | .operate op ra rb function rc => Assembly.operate op ra rb function rc
  | .operateLiteral op ra literal function rc => Assembly.operateLiteral op ra literal function rc
  | .floatOperate op fa fb function fc => Assembly.floatOperate op fa fb function fc
  | .memory op ra rb displacement => Assembly.memory op ra rb displacement
  | .misc function ra rb => Assembly.misc function ra rb
  | .jump function ra rb => Assembly.jump function ra rb
  | .branch op ra displacement => Assembly.branch op ra displacement
  | .callPal function => Assembly.callPal function

/-- What the builder asks, in the order of the word. -/
def demands : Statement → List Demand
  | .operate _ ra rb function rc =>
    [.register ra, .register rb, .function function 7, .register rc]
  | .operateLiteral _ ra _ function rc => [.register ra, .function function 7, .register rc]
  | .floatOperate _ fa fb function fc =>
    [.register fa, .register fb, .function function 11, .register fc]
  | .memory _ ra rb _ => [.register ra, .register rb]
  | .misc function ra rb => [.register ra, .register rb, .function function 6]
  | .jump function ra rb => [.register ra, .register rb, .function function 2]
  | .branch _ ra displacement => [.register ra, .displacement displacement]
  | .callPal function => [.function function 26]

/-- The fields of the word, from the top down. -/
def fields : Statement → List Field
  | .operate op ra rb function rc =>
    [opcode op, (ra, 5), (rb, 5), (0, 3), (0, 1), (function, 7), (rc, 5)]
  | .operateLiteral op ra literal function rc =>
    [opcode op, (ra, 5), (literal.toNat, 8), (1, 1), (function, 7), (rc, 5)]
  | .floatOperate op fa fb function fc =>
    [opcode op, (fa, 5), (fb, 5), (function, 11), (fc, 5)]
  | .memory op ra rb displacement =>
    [opcode op, (ra, 5), (rb, 5), (displacement.toUInt16.toNat, 16)]
  | .misc function ra rb => [opcode .misc, (ra, 5), (rb, 5), (function, 6), (0, 10)]
  | .jump function ra rb => [opcode .jsr, (ra, 5), (rb, 5), (function, 2), (0, 14)]
  | .branch op ra displacement => [opcode op, (ra, 5), ((displacement % 2 ^ 21).toNat, 21)]
  | .callPal function => [opcode .callPal, (function, 26)]

theorem width_fields (s : Statement) : width s.fields = 32 := by
  cases s <;> rfl

/-- **A builder reports the first demand that fails**, and packs its fields if there is none; they
always make up a word. -/
theorem word_eq (s : Statement) : s.word = report s.demands (joined s.fields) := by
  have hpack : pack s.fields = .ok (joined s.fields) := pack_eq s.width_fields
  cases s <;>
    simp only [word, Assembly.operate, Assembly.operateLiteral, Assembly.floatOperate,
      Assembly.memory, Assembly.misc, Assembly.jump, Assembly.branch, Assembly.callPal,
      reg_bind, unsigned_bind, signed_bind, demands, report, ← hpack] <;>
    rfl

theorem word_of_holds {s : Statement} (h : ∀ d ∈ s.demands, d.Holds) :
    s.word = .ok (joined s.fields) := by
  rw [word_eq, report_of_holds h]

/-! ### Decoding what was assembled -/

/-- The opcode is of the builder's format. -/
def InFormat : Statement → Prop
  | .operate op .. | .operateLiteral op .. => op.format = .operate ∧ op.isFloatOperate = false
  | .floatOperate op .. => op.isFloatOperate = true
  | .memory op .. => op.format = .memory
  | .branch op .. => op.format = .branch
  | .misc .. | .jump .. | .callPal _ => True

/-- The instruction has the opcode and the fields of the statement.  The barrier and the jump group
show their function in the function code. -/
def Matches (s : Statement) (i : Instruction) : Prop :=
  match s with
  | .misc function ra rb =>
    (∃ displacement, i.statement = .memory .misc ra rb displacement) ∧
      i.functionCode = some function
  | .jump function ra rb =>
    (∃ displacement, i.statement = .memory .jsr ra rb displacement) ∧
      i.functionCode = some function
  | s => i.statement = s

/-- The field number `i` of an assembled word. -/
theorem bitField_fields (s : Statement) (i : Nat) {lsb value count : Nat}
    (hi : s.fields[i]? = some (value, count)) (hlsb : width (s.fields.drop (i + 1)) = lsb)
    (hlt : value < 2 ^ count) : bitField (joined s.fields) lsb count = value := by
  obtain ⟨hlength, hget⟩ := List.getElem?_eq_some_iff.1 hi
  have hsplit : s.fields = s.fields.take i ++ (value, count) :: s.fields.drop (i + 1) := by
    rw [← hget, ← List.drop_eq_getElem_cons hlength, List.take_append_drop]
  have hwidth := s.width_fields
  rw [hsplit] at hwidth
  have hfield := bitField_joined hwidth
  rwa [← hsplit, hlsb, Nat.mod_eq_of_lt hlt] at hfield

theorem regField_fields (s : Statement) (i : Nat) {lsb index : Nat}
    (hi : s.fields[i]? = some (index, 5)) (hlsb : width (s.fields.drop (i + 1)) = lsb)
    (hlt : index < 32) : (regField (joined s.fields) lsb).val = index :=
  s.bitField_fields i hi hlsb hlt

theorem opcode_fields (s : Statement) {op : Opcode} {rest : List Field}
    (h : s.fields = opcode op :: rest) : Opcode.ofBits (bitField (joined s.fields) 26 6) = op := by
  have hwidth : width (s.fields.drop 1) = 26 := by
    have htotal := s.width_fields
    rw [h] at htotal ⊢
    simp only [width_cons, opcode, List.drop_one, List.tail_cons] at *
    omega
  have hfirst : s.fields[0]? = some (op.bits, 6) := by
    rw [h]
    rfl
  rw [s.bitField_fields 0 hfirst hwidth op.bits_lt, Opcode.ofBits_bits]

theorem decode_of_opcode {word : UInt32} {op : Opcode}
    (h : Opcode.ofBits (bitField word 26 6) = op) :
    Instruction.decode word = match op.format with
      | .operate => Instruction.decodeOperate word op
      | .memory =>
        .memory op (regField word 21) (regField word 16) (Int16.ofNat (bitField word 0 16))
      | .branch => .branch op (regField word 21) (signedField (bitField word 0 21) 21)
      | .pal => .pal (bitField word 0 26) := by
  subst h
  rfl

theorem format_of_isFloatOperate {op : Opcode} (h : op.isFloatOperate = true) :
    op.format = .operate := by
  cases op <;> first | rfl | cases h

theorem int16_ofNat_toNat (displacement : Int16) :
    Int16.ofNat displacement.toUInt16.toNat = displacement := by
  cases displacement
  simp [Int16.ofNat]

/-- A displacement is read back with its sign. -/
theorem signedField_displacement {value : Int} (h : (Demand.displacement value).Holds) :
    signedField (value % 2 ^ 21).toNat 21 = value := by
  obtain ⟨hlow, hhigh⟩ := h
  have hnat : ((value % 2 ^ 21).toNat : Int) = value % (2 ^ 21 : Nat) :=
    Int.toNat_of_nonneg (Int.emod_nonneg value (by decide))
  rw [signedField, Nat.one_shiftLeft, hnat, Int.emod_bmod]
  exact Int.bmod_eq_of_le (by omega) (by omega)

/-- The function of the barrier and of the jump group is at the top of the displacement. -/
theorem displacement_shiftRight (word : UInt32) {k : Nat} (hk : k ≤ 16) :
    (Int16.ofNat (bitField word 0 16)).toUInt16.toNat >>> k = bitField word k (16 - k) := by
  have hnat : (Int16.ofNat (bitField word 0 16)).toUInt16.toNat = bitField word 0 16 := by
    change (UInt16.ofNat (bitField word 0 16)).toNat = _
    rw [UInt16.toNat_ofNat', Nat.mod_eq_of_lt (bitField_lt word 0 16)]
  have hpow : 2 ^ 16 = 2 ^ k * 2 ^ (16 - k) := by rw [← Nat.pow_add, Nat.add_sub_of_le hk]
  rw [hnat, bitField_eq, bitField_eq, Nat.pow_zero, Nat.div_one, Nat.shiftRight_eq_div_pow, hpow,
    Nat.mod_mul_right_div_self]

theorem matches_operate {op : Opcode} {ra rb function rc : Nat}
    (hformat : (operate op ra rb function rc).InFormat)
    (h : ∀ d ∈ (operate op ra rb function rc).demands, d.Holds) :
    (operate op ra rb function rc).Matches
      (Instruction.decode (joined (operate op ra rb function rc).fields)) := by
  simp only [demands, List.forall_mem_cons, List.not_mem_nil] at h
  obtain ⟨hra, hrb, hfunction, hrc, -⟩ := h
  rw [decode_of_opcode (opcode_fields _ rfl), hformat.1]
  generalize hw : joined (operate op ra rb function rc).fields = w
  have ha : (regField w 21).val = ra := hw ▸ regField_fields _ 1 rfl rfl hra
  have hb : (regField w 16).val = rb := hw ▸ regField_fields _ 2 rfl rfl hrb
  have hbit : bitField w 12 1 = 0 := hw ▸ bitField_fields _ 4 rfl rfl (Nat.two_pow_pos 1)
  have hf : bitField w 5 7 = function := hw ▸ bitField_fields _ 5 rfl rfl hfunction
  have hc : (regField w 0).val = rc := hw ▸ regField_fields _ 6 rfl rfl hrc
  simp [Matches, Instruction.decodeOperate, hformat.2, hbit, Instruction.statement, ha, hb, hf, hc]

theorem matches_operateLiteral {op : Opcode} {ra function rc : Nat} {literal : UInt8}
    (hformat : (operateLiteral op ra literal function rc).InFormat)
    (h : ∀ d ∈ (operateLiteral op ra literal function rc).demands, d.Holds) :
    (operateLiteral op ra literal function rc).Matches
      (Instruction.decode (joined (operateLiteral op ra literal function rc).fields)) := by
  simp only [demands, List.forall_mem_cons, List.not_mem_nil] at h
  obtain ⟨hra, hfunction, hrc, -⟩ := h
  rw [decode_of_opcode (opcode_fields _ rfl), hformat.1]
  generalize hw : joined (operateLiteral op ra literal function rc).fields = w
  have ha : (regField w 21).val = ra := hw ▸ regField_fields _ 1 rfl rfl hra
  have hl : bitField w 13 8 = literal.toNat := hw ▸ bitField_fields _ 2 rfl rfl literal.toNat_lt
  have hbit : bitField w 12 1 = 1 := hw ▸ bitField_fields _ 3 rfl rfl (Nat.lt_succ_self 1)
  have hf : bitField w 5 7 = function := hw ▸ bitField_fields _ 4 rfl rfl hfunction
  have hc : (regField w 0).val = rc := hw ▸ regField_fields _ 5 rfl rfl hrc
  simp [Matches, Instruction.decodeOperate, hformat.2, hbit, Instruction.statement, ha, hl, hf, hc]

theorem matches_floatOperate {op : Opcode} {fa fb function fc : Nat}
    (hformat : (floatOperate op fa fb function fc).InFormat)
    (h : ∀ d ∈ (floatOperate op fa fb function fc).demands, d.Holds) :
    (floatOperate op fa fb function fc).Matches
      (Instruction.decode (joined (floatOperate op fa fb function fc).fields)) := by
  simp only [demands, List.forall_mem_cons, List.not_mem_nil] at h
  obtain ⟨hfa, hfb, hfunction, hfc, -⟩ := h
  have hfloat : op.isFloatOperate = true := hformat
  rw [decode_of_opcode (opcode_fields _ rfl), format_of_isFloatOperate hfloat]
  generalize hw : joined (floatOperate op fa fb function fc).fields = w
  have ha : (regField w 21).val = fa := hw ▸ regField_fields _ 1 rfl rfl hfa
  have hb : (regField w 16).val = fb := hw ▸ regField_fields _ 2 rfl rfl hfb
  have hf : bitField w 5 11 = function := hw ▸ bitField_fields _ 3 rfl rfl hfunction
  have hc : (regField w 0).val = fc := hw ▸ regField_fields _ 4 rfl rfl hfc
  simp [Matches, Instruction.decodeOperate, hfloat, Instruction.statement, ha, hb, hf, hc]

theorem matches_memory {op : Opcode} {ra rb : Nat} {displacement : Int16}
    (hformat : (memory op ra rb displacement).InFormat)
    (h : ∀ d ∈ (memory op ra rb displacement).demands, d.Holds) :
    (memory op ra rb displacement).Matches
      (Instruction.decode (joined (memory op ra rb displacement).fields)) := by
  simp only [demands, List.forall_mem_cons, List.not_mem_nil] at h
  obtain ⟨hra, hrb, -⟩ := h
  have hmemory : op.format = .memory := hformat
  rw [decode_of_opcode (opcode_fields _ rfl), hmemory]
  generalize hw : joined (memory op ra rb displacement).fields = w
  have ha : (regField w 21).val = ra := hw ▸ regField_fields _ 1 rfl rfl hra
  have hb : (regField w 16).val = rb := hw ▸ regField_fields _ 2 rfl rfl hrb
  have hd : bitField w 0 16 = displacement.toUInt16.toNat :=
    hw ▸ bitField_fields _ 3 rfl rfl displacement.toUInt16.toNat_lt
  simp only [Matches, Instruction.statement, ha, hb, hd, int16_ofNat_toNat]

theorem matches_branch {op : Opcode} {ra : Nat} {displacement : Int}
    (hformat : (branch op ra displacement).InFormat)
    (h : ∀ d ∈ (branch op ra displacement).demands, d.Holds) :
    (branch op ra displacement).Matches
      (Instruction.decode (joined (branch op ra displacement).fields)) := by
  simp only [demands, List.forall_mem_cons, List.not_mem_nil] at h
  obtain ⟨hra, hdisplacement, -⟩ := h
  have hbranch : op.format = .branch := hformat
  rw [decode_of_opcode (opcode_fields _ rfl), hbranch]
  generalize hw : joined (branch op ra displacement).fields = w
  have ha : (regField w 21).val = ra := hw ▸ regField_fields _ 1 rfl rfl hra
  have hd : bitField w 0 21 = (displacement % 2 ^ 21).toNat :=
    hw ▸ bitField_fields _ 2 rfl rfl (by omega)
  simp only [Matches, Instruction.statement, ha, hd, signedField_displacement hdisplacement]

/-- The barrier and the jump group, with a function of `16 - k` bits above `k` zero bits. -/
theorem decode_group {s : Statement} {op : Opcode} {function ra rb k : Nat} (hk : k ≤ 16)
    (hformat : op.format = .memory)
    (hfields : s.fields = [opcode op, (ra, 5), (rb, 5), (function, 16 - k), (0, k)])
    (hra : ra < 32) (hrb : rb < 32) (hfunction : function < 2 ^ (16 - k)) :
    ∃ (a b : Reg) (displacement : Int16),
      Instruction.decode (joined s.fields) = .memory op a b displacement ∧ a.val = ra ∧ b.val = rb ∧
      displacement.toUInt16.toNat >>> k = function := by
  have hsum : 16 - k + k = 16 := Nat.sub_add_cancel hk
  rw [decode_of_opcode (opcode_fields s hfields), hformat]
  refine ⟨_, _, _, rfl, ?_, ?_, ?_⟩
  · refine regField_fields s 1 (by rw [hfields]; rfl) ?_ hra
    simp [hfields, width, hsum]
  · refine regField_fields s 2 (by rw [hfields]; rfl) ?_ hrb
    simp [hfields, width, hsum]
  · rw [displacement_shiftRight _ hk]
    refine bitField_fields s 3 (by rw [hfields]; rfl) ?_ hfunction
    simp [hfields, width]

/-- **Decoding gives back the statement that was assembled.** -/
theorem matches_decode {s : Statement} (hformat : s.InFormat) (h : ∀ d ∈ s.demands, d.Holds) :
    s.Matches (Instruction.decode (joined s.fields)) := by
  cases s with
  | operate => exact matches_operate hformat h
  | operateLiteral => exact matches_operateLiteral hformat h
  | floatOperate => exact matches_floatOperate hformat h
  | memory => exact matches_memory hformat h
  | branch => exact matches_branch hformat h
  | misc function ra rb =>
    simp only [demands, List.forall_mem_cons, List.not_mem_nil] at h
    obtain ⟨hra, hrb, hfunction, -⟩ := h
    obtain ⟨a, b, displacement, hdecode, rfl, rfl, hshift⟩ :=
      decode_group (s := misc function ra rb) (k := 10) (by decide) rfl rfl hra hrb hfunction
    rw [hdecode]
    exact ⟨⟨displacement, rfl⟩, congrArg some hshift⟩
  | jump function ra rb =>
    simp only [demands, List.forall_mem_cons, List.not_mem_nil] at h
    obtain ⟨hra, hrb, hfunction, -⟩ := h
    obtain ⟨a, b, displacement, hdecode, rfl, rfl, hshift⟩ :=
      decode_group (s := jump function ra rb) (k := 14) (by decide) rfl rfl hra hrb hfunction
    rw [hdecode]
    exact ⟨⟨displacement, rfl⟩, congrArg some hshift⟩
  | callPal function =>
    have hf : bitField (joined (callPal function).fields) 0 26 = function :=
      bitField_fields _ 1 rfl rfl (h _ List.mem_cons_self)
    rw [decode_of_opcode (opcode_fields _ rfl)]
    exact congrArg Statement.callPal hf

/-! ### Assembling what was decoded -/

theorem bits_of_pal {op : Opcode} (h : op.format = .pal) : op.bits = 0 := by
  cases op <;> first | rfl | cases h

/-- The opcode field of a word. -/
theorem opcode_of_ofBits {w : UInt32} {op : Opcode} (h : Opcode.ofBits (bitField w 26 6) = op) :
    opcode op = (bitField w 26 6, 6) := by
  rw [opcode, ← h, Opcode.bits_ofBits (bitField_lt w 26 6)]

theorem word_of_cut {s : Statement} {w : UInt32} (widths : List Nat)
    (h : ∀ d ∈ s.demands, d.Holds) (hfields : s.fields = cut w widths) : s.word = .ok w := by
  have hsum := s.width_fields
  rw [hfields, width_cut] at hsum
  rw [word_of_holds h, hfields, joined_cut w hsum]

theorem bitField_and_ones {mask : UInt32} {lsb width : Nat}
    (h : bitField mask lsb width = 2 ^ width - 1) (w : UInt32) :
    bitField (w &&& mask) lsb width = bitField w lsb width := by
  rw [bitField_and, h, Nat.and_two_pow_sub_one_eq_mod, Nat.mod_eq_of_lt (bitField_lt w lsb width)]

theorem bitField_and_zeros {mask : UInt32} {lsb width : Nat} (h : bitField mask lsb width = 0)
    (w : UInt32) : bitField (w &&& mask) lsb width = 0 := by
  rw [bitField_and, h, Nat.and_zero]

theorem displacement_of_signedField (w : UInt32) :
    (Demand.displacement (signedField (bitField w 0 21) 21)).Holds ∧
      (signedField (bitField w 0 21) 21 % 2 ^ 21).toNat = bitField w 0 21 := by
  have hlt := bitField_lt w 0 21
  rw [signedField, Nat.one_shiftLeft]
  refine ⟨⟨?_, ?_⟩, ?_⟩
  · have hlow := Int.le_bmod (x := bitField w 0 21) (Nat.two_pow_pos 21)
    omega
  · have hhigh := Int.bmod_lt (x := bitField w 0 21) (Nat.two_pow_pos 21)
    omega
  · have hmod : (Int.bmod (bitField w 0 21) (2 ^ 21)) % (2 ^ 21 : Nat) = _ := Int.bmod_emod
    omega

section Reassembly

variable {w : UInt32} {op : Opcode}

theorem word_of_memory (hop : Opcode.ofBits (bitField w 26 6) = op)
    (hformat : op.format = .memory) :
    (Instruction.decode w).statement.word = .ok w := by
  rw [decode_of_opcode hop, hformat]
  refine word_of_cut [6, 5, 5, 16] ?_ ?_
  · simp only [Instruction.statement, demands, List.forall_mem_cons, List.not_mem_nil]
    exact ⟨(regField w 21).isLt, (regField w 16).isLt, nofun⟩
  · have hd : (Int16.ofNat (bitField w 0 16)).toUInt16.toNat = bitField w 0 16 :=
      displacement_shiftRight w (Nat.zero_le 16)
    simp only [Instruction.statement, fields, opcode_of_ofBits hop, hd]
    rfl

theorem word_of_branch (hop : Opcode.ofBits (bitField w 26 6) = op)
    (hformat : op.format = .branch) :
    (Instruction.decode w).statement.word = .ok w := by
  obtain ⟨hholds, hd⟩ := displacement_of_signedField w
  rw [decode_of_opcode hop, hformat]
  refine word_of_cut [6, 5, 21] ?_ ?_
  · simp only [Instruction.statement, demands, List.forall_mem_cons, List.not_mem_nil]
    exact ⟨(regField w 21).isLt, hholds, nofun⟩
  · simp only [Instruction.statement, fields, opcode_of_ofBits hop, hd]
    rfl

theorem word_of_pal (hop : Opcode.ofBits (bitField w 26 6) = op) (hformat : op.format = .pal) :
    (Instruction.decode w).statement.word = .ok w := by
  have hbits : opcode .callPal = (bitField w 26 6, 6) := by
    rw [← opcode_of_ofBits hop, opcode, opcode, bits_of_pal hformat]
    rfl
  rw [decode_of_opcode hop, hformat]
  refine word_of_cut [6, 26] ?_ ?_
  · simp only [Instruction.statement, demands, List.forall_mem_cons, List.not_mem_nil]
    exact ⟨bitField_lt w 0 26, nofun⟩
  · simp only [Instruction.statement, fields, hbits]
    rfl

theorem word_of_floatOperate (hop : Opcode.ofBits (bitField w 26 6) = op)
    (hfloat : op.isFloatOperate = true) : (Instruction.decode w).statement.word = .ok w := by
  rw [decode_of_opcode hop, format_of_isFloatOperate hfloat]
  simp only [Instruction.decodeOperate, hfloat, if_true]
  refine word_of_cut [6, 5, 5, 11, 5] ?_ ?_
  · simp only [Instruction.statement, demands, List.forall_mem_cons, List.not_mem_nil]
    exact ⟨(regField w 21).isLt, (regField w 16).isLt, bitField_lt w 5 11, (regField w 0).isLt,
      nofun⟩
  · simp only [Instruction.statement, fields, opcode_of_ofBits hop]
    rfl

theorem word_of_literal (hop : Opcode.ofBits (bitField w 26 6) = op)
    (hformat : op.format = .operate) (hfloat : op.isFloatOperate = false)
    (hbit : bitField w 12 1 = 1) :
    (Instruction.decode w).statement.word = .ok w := by
  rw [decode_of_opcode hop, hformat]
  simp only [Instruction.decodeOperate, hfloat, hbit, Bool.false_eq_true, if_false, if_true]
  refine word_of_cut [6, 5, 8, 1, 7, 5] ?_ ?_
  · simp only [Instruction.statement, demands, List.forall_mem_cons, List.not_mem_nil]
    exact ⟨(regField w 21).isLt, bitField_lt w 5 7, (regField w 0).isLt, nofun⟩
  · have hl : (UInt8.ofNat (bitField w 13 8)).toNat = bitField w 13 8 := by
      rw [UInt8.toNat_ofNat', Nat.mod_eq_of_lt (bitField_lt w 13 8)]
    have hcut : cut w [6, 5, 8, 1, 7, 5] =
        [(bitField w 26 6, 6), (bitField w 21 5, 5), (bitField w 13 8, 8), (bitField w 12 1, 1),
          (bitField w 5 7, 7), (bitField w 0 5, 5)] := rfl
    rw [hcut, hbit]
    simp only [Instruction.statement, fields, opcode_of_ofBits hop, hl]
    rfl

/-- Clears the three bits that an operate word with a register leaves unused. -/
def registerMask : UInt32 := 0xFFFF1FFF

theorem word_of_register (hop : Opcode.ofBits (bitField w 26 6) = op)
    (hformat : op.format = .operate) (hfloat : op.isFloatOperate = false)
    (hbit : bitField w 12 1 = 0) :
    (Instruction.decode w).statement.word = .ok (w &&& registerMask) := by
  rw [decode_of_opcode hop, hformat]
  simp only [Instruction.decodeOperate, hfloat, hbit, Bool.false_eq_true, if_false,
    Nat.zero_ne_one]
  refine word_of_cut [6, 5, 5, 3, 1, 7, 5] ?_ ?_
  · simp only [Instruction.statement, demands, List.forall_mem_cons, List.not_mem_nil]
    exact ⟨(regField w 21).isLt, (regField w 16).isLt, bitField_lt w 5 7, (regField w 0).isLt,
      nofun⟩
  · have h26 : bitField (w &&& registerMask) 26 6 = bitField w 26 6 := bitField_and_ones rfl w
    have h21 : bitField (w &&& registerMask) 21 5 = bitField w 21 5 := bitField_and_ones rfl w
    have h16 : bitField (w &&& registerMask) 16 5 = bitField w 16 5 := bitField_and_ones rfl w
    have h13 : bitField (w &&& registerMask) 13 3 = 0 := bitField_and_zeros rfl w
    have h12 : bitField (w &&& registerMask) 12 1 = bitField w 12 1 := bitField_and_ones rfl w
    have h5 : bitField (w &&& registerMask) 5 7 = bitField w 5 7 := bitField_and_ones rfl w
    have h0 : bitField (w &&& registerMask) 0 5 = bitField w 0 5 := bitField_and_ones rfl w
    have hcut : cut (w &&& registerMask) [6, 5, 5, 3, 1, 7, 5] =
        [(bitField (w &&& registerMask) 26 6, 6), (bitField (w &&& registerMask) 21 5, 5),
          (bitField (w &&& registerMask) 16 5, 5), (bitField (w &&& registerMask) 13 3, 3),
          (bitField (w &&& registerMask) 12 1, 1), (bitField (w &&& registerMask) 5 7, 7),
          (bitField (w &&& registerMask) 0 5, 5)] := rfl
    rw [hcut, h26, h21, h16, h13, h12, h5, h0, hbit]
    simp only [Instruction.statement, fields, opcode_of_ofBits hop]
    rfl

end Reassembly

/-- The word is an integer operate word with a register as second operand. -/
def HasRegisterOperand (w : UInt32) : Prop :=
  (Opcode.ofBits (bitField w 26 6)).format = .operate ∧
    (Opcode.ofBits (bitField w 26 6)).isFloatOperate = false ∧ bitField w 12 1 = 0

instance (w : UInt32) : Decidable (HasRegisterOperand w) := inferInstanceAs (Decidable (_ ∧ _ ∧ _))

/-- **Assembling the fields of a decoded word gives back the word**, up to the bits that a register
operand leaves unused. -/
theorem word_statement_decode (w : UInt32) :
    (Instruction.decode w).statement.word =
      .ok (if HasRegisterOperand w then w &&& registerMask else w) := by
  by_cases hr : HasRegisterOperand w
  · rw [if_pos hr]
    exact word_of_register rfl hr.1 hr.2.1 hr.2.2
  · rw [if_neg hr]
    cases hformat : (Opcode.ofBits (bitField w 26 6)).format with
    | memory => exact word_of_memory rfl hformat
    | branch => exact word_of_branch rfl hformat
    | pal => exact word_of_pal rfl hformat
    | operate =>
      cases hfloat : (Opcode.ofBits (bitField w 26 6)).isFloatOperate with
      | true => exact word_of_floatOperate rfl hfloat
      | false =>
        have hne : bitField w 12 1 ≠ 0 := fun hbit => hr ⟨hformat, hfloat, hbit⟩
        have hlt : bitField w 12 1 < 2 := bitField_lt w 12 1
        exact word_of_literal rfl hformat hfloat (by omega)

end Statement

/-! ### Both directions -/

namespace Statement

open Assembly

theorem exists_word_iff (s : Statement) : (∃ w, s.word = .ok w) ↔ ∀ d ∈ s.demands, d.Holds := by
  constructor
  · rintro ⟨w, hw⟩
    exact holds_of_report (s.word_eq ▸ hw)
  · intro h
    exact ⟨_, word_of_holds h⟩

/-- The first demand that fails is reported, and nothing is emitted. -/
theorem word_of_fails {s : Statement} {before after : List Demand} {d : Demand}
    (hsplit : s.demands = before ++ d :: after) (hbefore : ∀ d' ∈ before, d'.Holds)
    (hd : ¬ d.Holds) :
    s.word = .error d.error ∧ ∀ p : Program, p.emit s.word = (.error d.error, p) := by
  have hword : s.word = .error d.error := by
    rw [word_eq, hsplit, report_of_fails hbefore hd]
  refine ⟨hword, fun p => ?_⟩
  rw [hword]
  rfl

/-- **Assembler and decoder are inverse.**  A builder gives a word exactly when all its fields are
within range, and otherwise the error of the first one that is not, with no program changed.  The
word decodes to the opcode and the fields that were asked for.  The fields of any word, decoded, are
assembled to that word, up to bits 15 to 13 of an operate word with a register operand. -/
theorem assembly_inverse :
    (∀ s : Statement,
      ((∃ w, s.word = .ok w) ↔ ∀ d ∈ s.demands, d.Holds) ∧
      (∀ before d after, s.demands = before ++ d :: after → (∀ d' ∈ before, d'.Holds) →
        ¬ d.Holds →
        s.word = .error d.error ∧ ∀ p : Program, p.emit s.word = (.error d.error, p)) ∧
      (s.InFormat → ∀ w, s.word = .ok w →
        s.Matches (Instruction.decode w) ∧ ∀ p : Program, p.emit s.word = (.ok (), p.push w))) ∧
    ∀ w, (Instruction.decode w).statement.word =
      .ok (if HasRegisterOperand w then w &&& registerMask else w) := by
  refine ⟨fun s => ⟨s.exists_word_iff, ?_, ?_⟩, word_statement_decode⟩
  · intro before d after hsplit hbefore hd
    exact word_of_fails hsplit hbefore hd
  · intro hformat w hw
    have hholds := s.exists_word_iff.1 ⟨w, hw⟩
    obtain rfl : joined s.fields = w := Except.ok.inj ((word_of_holds hholds).symm.trans hw)
    refine ⟨matches_decode hformat hholds, fun p => ?_⟩
    rw [hw]
    rfl

/-- A branch to itself and back from its word, the displacement with its sign, and a branch that is
one instruction too far. -/
theorem assembly_inverse_branch :
    (branch .br 31 (-1)).Matches (Instruction.decode 0xC3FFFFFF) ∧
      (Instruction.decode 0xC3FFFFFF).statement.word = .ok 0xC3FFFFFF ∧
      (Program.empty.push 0).emit (branch .br 31 (2 ^ 20)).word =
        (.error (.signed "displacement" (2 ^ 20) 21), Program.empty.push 0) := by
  obtain ⟨hstatements, hwords⟩ := assembly_inverse
  have hword : (branch .br 31 (-1)).word = .ok 0xC3FFFFFF := by decide +kernel
  obtain ⟨-, hfar⟩ := (hstatements (branch .br 31 (2 ^ 20))).2.1 [.register 31]
    (.displacement (2 ^ 20)) [] rfl (by decide) (by decide)
  refine ⟨((hstatements (branch .br 31 (-1))).2.2 rfl _ hword).1, (hwords _).trans ?_, hfar _⟩
  rw [if_neg (by decide)]

end Statement

end AlphaMachine
