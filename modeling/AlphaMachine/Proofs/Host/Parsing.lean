import AlphaMachine.Proofs.Host.Format

/-!
# Taking instructions apart

The bytes of an instruction are taken apart into the fields that went into them, whatever bytes come
after: prefixes by `Host.takeRex_rex`, operands by `Host.takeModrm_register` and
`Host.takeModrm_based`.  One lemma for each form of instructions says which fields `Host.parse`
finds: `Host.parse_encodeReg`, `Host.parse_encodeMem`, `Host.parse_encodePlusReg` and
`Host.parse_bare`.
-/

namespace AlphaMachine

namespace Host

/-! ### Bytes of numbers -/

theorem length_dwordBytes (value : Int32) : (dwordBytes value).length = 4 := Bytes.length_ofWord ..

theorem signedDword_dwordBytes (value : Int32) : signedDword (dwordBytes value) = value :=
  signedDword_ofDword value

theorem ofNat_littleEndian_ofWord (value : UInt64) :
    UInt64.ofNat (Bytes.littleEndian (Bytes.ofWord value 8)) = value := by
  have hlt := value.toNat_lt
  rw [Bytes.littleEndian_ofWord, ← UInt64.toNat_inj, UInt64.toNat_ofNat']
  omega

theorem takeBytes_append (bytes rest : List UInt8) :
    takeBytes bytes.length (bytes ++ rest) = some (bytes, rest) := by
  simp [takeBytes]

/-! ### Registers -/

@[simp]
theorem gpr?_index (r : Gpr) : gpr? r.index = some r := by cases r <;> rfl

@[simp]
theorem xmm?_val (r : Xmm) : xmm? r.val = some r := by simp [xmm?]

theorem index_lt (r : Gpr) : r.index < 16 := by cases r <;> decide

@[simp]
theorem getElem?_code (cond : Cond) : Cond.all[cond.code]? = some cond := by cases cond <;> rfl

/-! ### Prefixes -/

/-- The prefix that a processor sees when `rex` is encoded. -/
def Rex.of (wide : Bool) (reg index rm : Nat) (force : Bool) : Rex :=
  ⟨(rex wide reg index rm force).isSome, wide, reg / 8 % 2, index / 8 % 2, rm / 8 % 2⟩

@[simp]
theorem Rex.wide_of (wide : Bool) (reg index rm : Nat) (force : Bool) :
    (Rex.of wide reg index rm force).wide = wide := rfl

theorem takeRex_rex (wide : Bool) (reg index rm : Nat) (force : Bool) {b : UInt8}
    (hb : b.toNat / 16 ≠ 4) (rest : List UInt8) :
    takeRex ((rex wide reg index rm force).toList ++ b :: rest) =
      (Rex.of wide reg index rm force, b :: rest) := by
  have hw : wide.toNat ≤ 1 := Bool.toNat_le wide
  have hwide : decide (wide.toNat = 1) = wide := by cases wide <;> rfl
  have hr := Nat.mod_lt (reg / 8) Nat.two_pos
  have hx := Nat.mod_lt (index / 8) Nat.two_pos
  have hm := Nat.mod_lt (rm / 8) Nat.two_pos
  unfold Rex.of rex
  dsimp only
  generalize wide.toNat = w, reg / 8 % 2 = r, index / 8 % 2 = x, rm / 8 % 2 = m at *
  by_cases hbits : 8 * w + 4 * r + 2 * x + m ≠ 0 ∨ force = true
  · have hbyte : (UInt8.ofNat (0x40 + (8 * w + 4 * r + 2 * x + m))).toNat =
        64 + (8 * w + 4 * r + 2 * x + m) := by
      rw [UInt8.toNat_ofNat']
      omega
    have hhigh : (64 + (8 * w + 4 * r + 2 * x + m)) / 16 = 4 := by omega
    have h3 : (64 + (8 * w + 4 * r + 2 * x + m)) / 8 % 2 = w := by omega
    have h2 : (64 + (8 * w + 4 * r + 2 * x + m)) / 4 % 2 = r := by omega
    have h1 : (64 + (8 * w + 4 * r + 2 * x + m)) / 2 % 2 = x := by omega
    have h0 : (64 + (8 * w + 4 * r + 2 * x + m)) % 2 = m := by omega
    rw [if_pos hbits]
    simp only [Option.toList_some, List.cons_append, List.nil_append, takeRex, hbyte, hhigh, h3, h2,
      h1, h0, hwide, if_true, Option.isSome_some]
  · -- Without a prefix, all its bits are zero, and so they are taken to be.
    obtain ⟨hzero, -⟩ := not_or.1 hbits
    have hzero' : 8 * w + 4 * r + 2 * x + m = 0 := by omega
    have hw0 : w = 0 := by omega
    have hr0 : r = 0 := by omega
    have hx0 : x = 0 := by omega
    have hm0 : m = 0 := by omega
    rw [if_neg hbits, ← hwide, hw0, hr0, hx0, hm0]
    simp only [Option.toList_none, List.nil_append, takeRex, hb, if_false, Option.isSome_none]
    rfl

theorem isLegacy_of_rex {wide : Bool} {reg index rm : Nat} {force : Bool} {b : UInt8}
    (h : rex wide reg index rm force = some b) : isLegacy b = false := by
  have hw : wide.toNat ≤ 1 := Bool.toNat_le wide
  have hbyte : b.toNat / 16 = 4 := by
    unfold rex at h
    dsimp only at h
    split at h
    · cases h
      rw [UInt8.toNat_ofNat']
      omega
    · cases h
  rw [isLegacy, decide_eq_false_iff_not]
  intro hb
  simp only [List.mem_cons, List.not_mem_nil, or_false] at hb
  rcases hb with rfl | rfl | rfl <;> exact absurd hbyte (by decide)

theorem takeLegacy_append {legacy : Option UInt8} (hlegacy : legacy.all isLegacy = true)
    (wide : Bool) (reg index rm : Nat) (force : Bool) {b : UInt8} (hb : isLegacy b = false)
    (rest : List UInt8) :
    takeLegacy (legacy.toList ++ ((rex wide reg index rm force).toList ++ b :: rest)) =
      (legacy, (rex wide reg index rm force).toList ++ b :: rest) := by
  cases legacy with
  | some p => exact if_pos hlegacy
  | none =>
    cases hrex : rex wide reg index rm force with
    | none => exact if_neg (Bool.eq_false_iff.1 hb)
    | some x => exact if_neg (Bool.eq_false_iff.1 (isLegacy_of_rex hrex))

variable {opcode : OpcodeBytes} {layout : OpcodeLayout}

/-- No opcode can be taken for a prefix. -/
theorem OpcodeBytes.not_prefix {b : UInt8} (h : (OpcodeBytes.one b).layout? = some layout) :
    isLegacy b = false ∧ b.toNat / 16 ≠ 4 ∧ b ≠ 0x0F := by
  have hall : ∀ n < 256, (OpcodeBytes.one (.ofNat n)).layout?.isSome → isLegacy (.ofNat n) = false ∧
      (UInt8.ofNat n).toNat / 16 ≠ 4 ∧ UInt8.ofNat n ≠ 0x0F := by decide +kernel
  have hb := hall b.toNat b.toNat_lt
  rw [UInt8.ofNat_toNat, h] at hb
  exact hb rfl

/-- An opcode begins with a byte that is no prefix, and is taken as a whole. -/
theorem OpcodeBytes.exists_bytes_eq (h : opcode.layout? = some layout) :
    ∃ b rest, opcode.bytes = b :: rest ∧ isLegacy b = false ∧ b.toNat / 16 ≠ 4 ∧
      ∀ after, takeOpcode (b :: (rest ++ after)) = some (opcode, after) := by
  cases opcode with
  | one b =>
    obtain ⟨hlegacy, hrex, htwo⟩ := OpcodeBytes.not_prefix h
    exact ⟨b, [], rfl, hlegacy, hrex, fun after => if_neg htwo⟩
  | two b => exact ⟨0x0F, [b], rfl, by decide, by decide, fun after => rfl⟩

/-! ### Operands -/

theorem toNat_modrm {mode : Nat} (hmode : mode < 4) (reg rm : Nat) :
    (modrm mode reg rm).toNat = 64 * mode + 8 * (reg % 8) + rm % 8 := by
  rw [modrm, UInt8.toNat_ofNat']
  omega

theorem toNat_sib {scale : Nat} (hscale : scale < 4) (index base : Nat) :
    (sib scale index base).toNat = 64 * scale + 8 * (index % 8) + base % 8 :=
  toNat_modrm hscale index base

theorem takeModrm_register (wide : Bool) {reg rm : Nat} (hreg : reg < 16) (hrm : rm < 16)
    (force : Bool) (rest : List UInt8) :
    takeModrm (Rex.of wide reg 0 rm force) (modrm modeRegister reg rm :: rest) =
      some (reg, .register rm, rest) := by
  have hmode : (192 + 8 * (reg % 8) + rm % 8) / 64 = 3 := by omega
  have hregs : 8 * (reg / 8 % 2) + (192 + 8 * (reg % 8) + rm % 8) / 8 % 8 = reg := by omega
  have hrms : 8 * (rm / 8 % 2) + (192 + 8 * (reg % 8) + rm % 8) % 8 = rm := by omega
  have hbyte : (modrm modeRegister reg rm).toNat = 192 + 8 * (reg % 8) + rm % 8 :=
    toNat_modrm (by decide) reg rm
  simp only [takeModrm, Rex.of, hbyte, hmode, hregs, hrms, if_true]

theorem takeDisp_dwordBytes (disp : Int32) (rest : List UInt8) :
    takeDisp modeDisp32 (dwordBytes disp ++ rest) = some (disp, rest) := by
  have htake : takeBytes 4 (dwordBytes disp ++ rest) = some (dwordBytes disp, rest) :=
    takeBytes_append (dwordBytes disp) rest
  simp only [takeDisp, modeDisp32, htake, Option.map_some, signedDword_dwordBytes]

/-- The bytes of a memory operand, without its displacement. -/
def baseBytes (reg : Nat) (base : Gpr) : List UInt8 :=
  if base.index % 8 = sibMarker then
    [modrm modeDisp32 reg sibMarker, sib 0 sibMarker base.index]
  else [modrm modeDisp32 reg base.index]

/-- A memory operand is its base and displacement, with a SIB byte or without. -/
theorem takeModrm_based (wide : Bool) {reg : Nat} (hreg : reg < 16) (base : Gpr) (disp : Int32)
    (force : Bool) (rest : List UInt8) :
    takeModrm (Rex.of wide reg 0 base.index force)
      (baseBytes reg base ++ (dwordBytes disp ++ rest)) =
      some (reg, .based base.index disp, rest) := by
  have hlt := index_lt base
  have hdisp := takeDisp_dwordBytes disp rest
  unfold baseBytes
  generalize base.index = n at *
  have hbyte (rm : Nat) : (modrm modeDisp32 reg rm).toNat = 128 + 8 * (reg % 8) + rm % 8 :=
    toNat_modrm (by decide) reg rm
  have hmode (rm : Nat) : (128 + 8 * (reg % 8) + rm % 8) / 64 = modeDisp32 := by
    rw [modeDisp32]
    omega
  have hregs (rm : Nat) : 8 * (reg / 8 % 2) + (128 + 8 * (reg % 8) + rm % 8) / 8 % 8 = reg := by
    omega
  have hrm (rm : Nat) : (128 + 8 * (reg % 8) + rm % 8) % 8 = rm % 8 := by omega
  have hbase : 8 * (n / 8 % 2) + n % 8 = n := by omega
  have hne : modeDisp32 ≠ 0b11 := by decide
  have hne' : modeDisp32 ≠ 0 := by decide
  by_cases hsib : n % 8 = sibMarker
  · -- The numbers of `rsp` and `r12` are taken by the marker, so that they stand in a SIB byte.
    have hsibByte : (sib 0 sibMarker n).toNat = 32 + n % 8 := toNat_sib (by decide) ..
    have hindex : 8 * (0 / 8 % 2) + (32 + n % 8) / 8 % 8 = 0b100 := by omega
    have hlow : (32 + n % 8) % 8 = n % 8 := by omega
    rw [if_pos hsib]
    simp only [List.cons_append, List.nil_append, takeModrm, takeSib, Rex.of, hbyte, hmode, hregs,
      hrm, hsibByte, hindex, hlow, hbase, hne, hne', hdisp, if_false, false_and]
    rfl
  · have hsib' : n % 8 ≠ 0b100 := hsib
    rw [if_neg hsib]
    simp only [List.cons_append, List.nil_append, takeModrm, Rex.of, hbyte, hmode, hregs, hrm,
      hbase, hne, hne', hsib', hdisp, if_false, false_and, Option.map_some]

/-! ### Instructions by their form -/

/-- A form of instructions is parsed if its operands are. -/
theorem parse_of_takeOperands (legacy : Option UInt8) (hlegacy : legacy.all isLegacy = true)
    {opcode' : OpcodeBytes} {wide force : Bool} {r x m reg : Nat} {operand : RmOperand}
    {operands imm rest : List UInt8} (hlayout : opcode.layout? = some layout)
    (hoperands : takeOperands (Rex.of wide r x m force) opcode (operands ++ (imm ++ rest)) =
      some (opcode', reg, operand, imm ++ rest))
    (himm : imm.length = opcode'.immLength wide (reg % 8)) :
    parse (legacy.toList ++ (rex wide r x m force).toList ++ opcode.bytes ++ operands ++ imm ++
      rest) = some (⟨legacy, Rex.of wide r x m force, opcode', reg, operand, imm⟩, rest) := by
  obtain ⟨b, bs, hbytes, hb, hrex, hopcode⟩ := OpcodeBytes.exists_bytes_eq hlayout
  have himm' : takeBytes (opcode'.immLength wide (reg % 8)) (imm ++ rest) = some (imm, rest) := by
    rw [← himm]
    exact takeBytes_append imm rest
  rw [hbytes]
  simp only [List.append_assoc, List.cons_append]
  unfold parse
  rw [takeLegacy_append hlegacy wide r x m force hb]
  dsimp only
  rw [takeRex_rex wide r x m force hrex]
  dsimp only
  rw [hopcode, Option.bind_eq_bind, Option.bind_some, hoperands]
  change (takeBytes (opcode'.immLength wide (reg % 8)) (imm ++ rest)).bind _ = _
  rw [himm']
  rfl

theorem parse_encodeReg {legacy : Option UInt8} (hlegacy : legacy.all isLegacy = true)
    (hlayout : opcode.layout? = some .modrm) (wide : Bool) {reg rm : Nat} (hreg : reg < 16)
    (hrm : rm < 16) (force : Bool) {imm : List UInt8}
    (himm : imm.length = opcode.immLength wide (reg % 8)) (rest : List UInt8) :
    parse (encodeReg legacy wide opcode.bytes reg rm force ++ imm ++ rest) =
      some (⟨legacy, Rex.of wide reg 0 rm force, opcode, reg, .register rm, imm⟩, rest) := by
  refine parse_of_takeOperands legacy hlegacy hlayout ?_ himm
  have hmodrm := takeModrm_register wide hreg hrm force (imm ++ rest)
  simp only [takeOperands, hlayout, List.cons_append, List.nil_append, hmodrm, Option.map_some]

theorem parse_encodeMem {legacy : Option UInt8} (hlegacy : legacy.all isLegacy = true)
    (hlayout : opcode.layout? = some .modrm) (wide : Bool) {reg : Nat} (hreg : reg < 16)
    (base : Gpr) (disp : Int32) (force : Bool) {imm : List UInt8}
    (himm : imm.length = opcode.immLength wide (reg % 8)) (rest : List UInt8) :
    parse (encodeMem legacy wide opcode.bytes reg base disp force ++ imm ++ rest) =
      some (⟨legacy, Rex.of wide reg 0 base.index force, opcode, reg, .based base.index disp, imm⟩,
        rest) := by
  have hmodrm := takeModrm_based wide hreg base disp force (imm ++ rest)
  have hoperands : takeOperands (Rex.of wide reg 0 base.index force) opcode
      ((baseBytes reg base ++ dwordBytes disp) ++ (imm ++ rest)) =
      some (opcode, reg, .based base.index disp, imm ++ rest) := by
    simp only [takeOperands, hlayout, List.append_assoc, hmodrm, Option.map_some]
  have hparse := parse_of_takeOperands legacy hlegacy hlayout hoperands himm
  rwa [← List.append_assoc _ (baseBytes reg base)] at hparse

/-- There is room for a register in the low bits of the opcode. -/
def OpcodeBytes.HasRegister (stem : UInt8) : Prop :=
  ∀ n < 8, (OpcodeBytes.one (stem + .ofNat n)).layout? = some .inOpcode ∧
    (OpcodeBytes.one (stem + .ofNat n)).stem = .one stem ∧
    (OpcodeBytes.one (stem + .ofNat n)).low = n

instance (stem : UInt8) : Decidable (OpcodeBytes.HasRegister stem) :=
  inferInstanceAs (Decidable (∀ n < 8, _))

theorem parse_encodePlusReg {stem : UInt8} (hstem : OpcodeBytes.HasRegister stem) (wide : Bool)
    (r : Gpr) {imm : List UInt8}
    (himm : imm.length = (OpcodeBytes.one stem).immLength wide 0) (rest : List UInt8) :
    parse (encodePlusReg wide stem r ++ imm ++ rest) =
      some (⟨none, Rex.of wide 0 0 r.index false, .one stem, 0, .register r.index, imm⟩, rest) := by
  have hlt := index_lt r
  obtain ⟨hlayout, hopcode, hlow⟩ := hstem (r.index % 8) (Nat.mod_lt _ (by decide))
  have hindex : 8 * (r.index / 8 % 2) + r.index % 8 = r.index := by omega
  have hoperands : takeOperands (Rex.of wide 0 0 r.index false)
      (.one (stem + .ofNat (r.index % 8))) ([] ++ (imm ++ rest)) =
      some (.one stem, 0, .register r.index, imm ++ rest) := by
    simp only [takeOperands, hlayout, hopcode, hlow, Rex.of, hindex, List.nil_append]
  have hparse := parse_of_takeOperands none rfl hlayout hoperands himm
  rw [List.append_nil] at hparse
  exact hparse

theorem parse_bare (hlayout : opcode.layout? = some .bare) {imm : List UInt8}
    (himm : imm.length = opcode.immLength false 0) (rest : List UInt8) :
    parse (opcode.bytes ++ imm ++ rest) =
      some (⟨none, Rex.of false 0 0 0 false, opcode, 0, .none, imm⟩, rest) := by
  have hoperands : takeOperands (Rex.of false 0 0 0 false) opcode ([] ++ (imm ++ rest)) =
      some (opcode, 0, .none, imm ++ rest) := by
    simp only [takeOperands, hlayout, List.nil_append]
  have hparse := parse_of_takeOperands none rfl hlayout hoperands himm
  simpa [rex] using hparse

end Host

end AlphaMachine
