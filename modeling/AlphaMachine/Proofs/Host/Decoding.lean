import AlphaMachine.Proofs.Host.Calls
import AlphaMachine.Proofs.Host.Meaning
import AlphaMachine.Proofs.Host.Parsing

/-!
# Code can be read back

What the fields of an instruction say is the instruction itself (`Host.Instr.exists_reads`), up to
instructions that are the same for the processor (`Host.Instr.Same`).  As each instruction is read
without looking at what follows, so is a sequence of them (`Host.exists_parseAll`), and
`Host.Emitter.added_code_readable` says this of all code that is ever emitted: one instruction for
each call, with its operands, and no byte left over.
-/

namespace AlphaMachine

namespace Host

/-! ### Reading instructions back -/

/-- The operand of the instruction is a byte register or a byte in memory, as it is for conditional
sets and extensions from 8 bits. -/
def Encoding.namesByte (e : Encoding) : Bool :=
  match e.legacy, e.opcode with
  | none, .two b => b / 16 = 0x9 || b = 0xB6 || b = 0xBE
  | _, _ => false

/-- The fields are of the kind that compiled code is made of. -/
structure Encoding.Plain (e : Encoding) : Prop where
  /-- Memory is not reached from the next instruction. -/
  ripRelative : ∀ disp, e.operand ≠ .ripRelative disp
  /-- Memory is not reached through an index. -/
  indexed : ∀ base index scale disp, e.operand ≠ .indexed base index scale disp
  /-- No byte register is a high one. -/
  highByte : e.namesByte = true → ∀ number, e.byteReg? ≠ some (.high number)

theorem Encoding.not_high_of_directLow? {e : Encoding} {r : Gpr} (h : e.directLow? = some r)
    (number : Nat) : e.byteReg? ≠ some (.high number) := by
  intro hhigh
  rw [directLow?, hhigh] at h
  cases h

/-- What can be read names no high byte. -/
theorem Encoding.not_high_of_op? {e : Encoding} {op : Op} (h : e.op? = some op)
    (hbyte : e.namesByte = true) (number : Nat) : e.byteReg? ≠ some (.high number) := by
  cases hlow : e.directLow? with
  | some r => exact not_high_of_directLow? hlow number
  | none =>
    -- An instruction that names a byte is not read without a low one.
    unfold namesByte at hbyte
    unfold op? at h
    split at hbyte
    · next b hlegacy hopcode =>
      rw [hlegacy, hopcode] at h
      simp only [Bool.or_eq_true, decide_eq_true_eq] at hbyte
      rcases hbyte with (hrow | rfl) | rfl
      · simp [hrow, twoByte?, hlow] at h
      · simp [twoByte?, hlow] at h
      · simp [twoByte?, hlow] at h
    · cases hbyte

/-- The bytes are one instruction, whatever comes after them, and can be read as `op`. -/
def Reads (bytes : List UInt8) (op : Op) : Prop :=
  ∀ rest, ∃ e, parse (bytes ++ rest) = some (e, rest) ∧ e.op? = some op ∧ e.Plain

theorem reads_of_parse {bytes : List UInt8} {e : Encoding} {op : Op}
    (hparse : ∀ rest, parse (bytes ++ rest) = some (e, rest)) (hop : e.op? = some op)
    (hrip : ∀ disp, e.operand ≠ .ripRelative disp)
    (hindexed : ∀ base index scale disp, e.operand ≠ .indexed base index scale disp) :
    Reads bytes op := fun rest =>
  ⟨e, hparse rest, hop, hrip, hindexed, Encoding.not_high_of_op? hop⟩

theorem reads_encodeReg (legacy : Option UInt8) (wide : Bool) (opcode : OpcodeBytes) {reg rm : Nat}
    (force : Bool) (imm : List UInt8) {op : Op} (hreg : reg < 16) (hrm : rm < 16)
    (hlegacy : legacy.all isLegacy = true) (hlayout : opcode.layout? = some .modrm)
    (himm : imm.length = opcode.immLength wide (reg % 8))
    (hop : Encoding.op? ⟨legacy, .of wide reg 0 rm force, opcode, reg, .register rm, imm⟩ =
      some op) : Reads (encodeReg legacy wide opcode.bytes reg rm force ++ imm) op :=
  reads_of_parse (parse_encodeReg hlegacy hlayout wide hreg hrm force himm) hop (by simp) (by simp)

theorem reads_encodeMem (wide : Bool) (opcode : OpcodeBytes) {reg : Nat} (base : Gpr) (disp : Int32)
    (imm : List UInt8) {op : Op} (hreg : reg < 16) (hlayout : opcode.layout? = some .modrm)
    (himm : imm.length = opcode.immLength wide (reg % 8))
    (hop : Encoding.op? ⟨none, .of wide reg 0 base.index false, opcode, reg,
      .based base.index disp, imm⟩ = some op) :
    Reads (encodeMem none wide opcode.bytes reg base disp false ++ imm) op :=
  reads_of_parse (parse_encodeMem rfl hlayout wide hreg base disp false himm) hop (by simp)
    (by simp)

theorem reads_encodePlusReg (wide : Bool) (stem : UInt8) (r : Gpr) (imm : List UInt8) {op : Op}
    (hstem : OpcodeBytes.HasRegister stem)
    (himm : imm.length = (OpcodeBytes.one stem).immLength wide 0)
    (hop : Encoding.op? ⟨none, .of wide 0 0 r.index false, .one stem, 0, .register r.index, imm⟩ =
      some op) : Reads (encodePlusReg wide stem r ++ imm) op :=
  reads_of_parse (parse_encodePlusReg hstem wide r himm) hop (by simp) (by simp)

theorem reads_bare (opcode : OpcodeBytes) (imm : List UInt8) {op : Op}
    (hlayout : opcode.layout? = some .bare) (himm : imm.length = opcode.immLength false 0)
    (hop : Encoding.op? ⟨none, .of false 0 0 0 false, opcode, 0, .none, imm⟩ = some op) :
    Reads (opcode.bytes ++ imm) op :=
  reads_of_parse (parse_bare hlayout himm) hop (by simp) (by simp)

theorem reads_direct (legacy : Option UInt8) (wide : Bool) (opcode : OpcodeBytes) {reg rm : Nat}
    (force : Bool) {op : Op} (hreg : reg < 16) (hrm : rm < 16)
    (hlegacy : legacy.all isLegacy = true) (hlayout : opcode.layout? = some .modrm)
    (himm : opcode.immLength wide (reg % 8) = 0)
    (hop : Encoding.op? ⟨legacy, .of wide reg 0 rm force, opcode, reg, .register rm, []⟩ =
      some op) : Reads (encodeReg legacy wide opcode.bytes reg rm force) op := by
  have hreads := reads_encodeReg legacy wide opcode force [] hreg hrm hlegacy hlayout himm.symm hop
  rwa [List.append_nil] at hreads

theorem reads_plusReg (stem : UInt8) (r : Gpr) {op : Op}
    (hstem : OpcodeBytes.HasRegister stem)
    (himm : (OpcodeBytes.one stem).immLength false 0 = 0)
    (hop : Encoding.op? ⟨none, .of false 0 0 r.index false, .one stem, 0, .register r.index, []⟩ =
      some op) : Reads (encodePlusReg false stem r) op := by
  have hreads := reads_encodePlusReg false stem r [] hstem himm.symm hop
  rwa [List.append_nil] at hreads

theorem reads_memory (opcode : OpcodeBytes) {reg : Nat} (base : Gpr) (disp : Int32) {op : Op}
    (hreg : reg < 16) (hlayout : opcode.layout? = some .modrm)
    (himm : opcode.immLength true (reg % 8) = 0)
    (hop : Encoding.op? ⟨none, .of true reg 0 base.index false, opcode, reg,
      .based base.index disp, []⟩ = some op) :
    Reads (encodeMem none true opcode.bytes reg base disp false) op := by
  have hreads := reads_encodeMem true opcode base disp [] hreg hlayout himm.symm hop
  rwa [List.append_nil] at hreads

/-- Instructions that are the same for the processor. -/
inductive Instr.Same : Instr → Instr → Prop where
  /-- An instruction is the same as itself. -/
  | refl (i : Instr) : Same i i
  /-- Some constants are loaded by a move of their low half, which is sign-extended. -/
  | constant (dst : Gpr) (imm : Int32) :
    Same (.movImm dst (immediate imm)) (.aluImm .mov .qword dst imm)

/-- Opcodes with a condition in their low bits. -/
theorem row_add_code (row : UInt8) (h : row.toNat % 16 = 0) (cond : Cond) :
    (row + .ofNat cond.code) / 16 = row / 16 ∧ (row + .ofNat cond.code).toNat % 16 = cond.code := by
  have hcode : cond.code < 16 := by cases cond <;> decide
  have hrow := row.toNat_lt
  have hsum : (row + .ofNat cond.code).toNat = row.toNat + cond.code := by
    rw [UInt8.toNat_add, UInt8.toNat_ofNat']
    omega
  refine ⟨?_, by omega⟩
  rw [← UInt8.toNat_inj, UInt8.toNat_div, UInt8.toNat_div, hsum]
  change (row.toNat + cond.code) / 16 = row.toNat / 16
  omega

open Encoding

-- What an encoding says is computed from its fields.
attribute [local simp] op? oneByte? twoByte? sse? xmms? either? alu? immOp? shiftOp? sseOp?
  OpSize.isWide

theorem reads_alu (op : AluOp) (size : OpSize) (dst src : Gpr) :
    Reads (Instr.alu op size dst src).encode (.instr (.alu op size dst src)) := by
  refine reads_direct none size.isWide (.one op.regOpcode) false (index_lt src) (index_lt dst) rfl
    ?_ ?_ ?_
  · cases op <;> rfl
  · cases op <;> rfl
  · cases op <;> cases size <;>
      simp [AluOp.regOpcode]

theorem reads_aluImm (op : AluOp) (size : OpSize) (dst : Gpr) (imm : Int32) :
    Reads (Instr.aluImm op size dst imm).encode (.instr (.aluImm op size dst imm)) := by
  refine reads_encodeReg none size.isWide (.one op.immOpcode) false (dwordBytes imm) ?_
    (index_lt dst) rfl ?_ ?_ ?_
  · cases op <;> decide
  · cases op <;> rfl
  · rw [length_dwordBytes]
    cases op <;> rfl
  · cases op <;> cases size <;>
      simp [AluOp.immOpcode, AluOp.immExtension, signedDword_dwordBytes]

theorem reads_shiftImm (op : ShiftOp) (size : OpSize) (reg : Gpr) (imm : UInt8) :
    Reads (Instr.shiftImm op size reg imm).encode (.instr (.shiftImm op size reg imm)) := by
  refine reads_encodeReg none size.isWide (.one 0xC1) false [imm] ?_ (index_lt reg) rfl rfl rfl ?_
  · cases op <;> decide
  · cases op <;> cases size <;>
      simp [ShiftOp.extension]

theorem reads_shiftCl (op : ShiftOp) (size : OpSize) (reg : Gpr) :
    Reads (Instr.shiftCl op size reg).encode (.instr (.shiftCl op size reg)) := by
  refine reads_direct none size.isWide (.one 0xD3) false ?_ (index_lt reg) rfl rfl rfl ?_
  · cases op <;> decide
  · cases op <;> cases size <;>
      simp [ShiftOp.extension]

theorem isSome_rex {wide : Bool} {reg rm : Nat} {force : Bool}
    (h : wide = true ∨ rm / 8 % 2 = 1 ∨ force = true) :
    (rex wide reg 0 rm force).isSome = true := by
  have hbits : 8 * wide.toNat + 4 * (reg / 8 % 2) + 2 * (0 / 8 % 2) + rm / 8 % 2 ≠ 0 ∨
      force = true := by
    rcases h with rfl | hrm | hforce
    · exact .inl (by rw [Bool.toNat_true]; omega)
    · exact .inl (by omega)
    · exact .inr hforce
  unfold rex
  dsimp only
  rw [if_pos hbits, Option.isSome_some]

theorem byteNeedsRex_of_le {r : Gpr} (h : 4 ≤ r.index) (h' : r.index < 8) :
    r.byteNeedsRex = true := by
  revert h h'
  cases r <;> decide

/-- The low byte of a register is named as such: where a number could be that of a high byte, there
is a prefix. -/
theorem directLow?_register (legacy : Option UInt8) (wide force : Bool) (opcode : OpcodeBytes)
    (reg : Nat) {r : Gpr} (h : r.byteNeedsRex = true → wide = true ∨ force = true) :
    directLow? ⟨legacy, .of wide reg 0 r.index force, opcode, reg, .register r.index, []⟩ =
      some r := by
  have hlow : ¬ ((rex wide reg 0 r.index force).isSome = false ∧ 4 ≤ r.index) := by
    rintro ⟨hnone, hle⟩
    have hlt := index_lt r
    have hsome : (rex wide reg 0 r.index force).isSome = true := by
      refine isSome_rex ?_
      by_cases hr : r.index < 8
      · rcases h (byteNeedsRex_of_le hle hr) with hwide | hforce
        · exact .inl hwide
        · exact .inr (.inr hforce)
      · exact .inr (.inl (by omega))
    rw [hnone] at hsome
    cases hsome
  have hbyte : byteReg? ⟨legacy, .of wide reg 0 r.index force, opcode, reg, .register r.index, []⟩ =
      some (.low r.index) := if_neg hlow
  simp only [directLow?, hbyte, gpr?_index]

theorem reads_movzx_byte (dst src : Gpr) :
    Reads (Instr.movzx .byte dst src).encode (.instr (.movzx .byte dst src)) := by
  refine reads_direct none false (.two 0xB6) src.byteNeedsRex (index_lt dst) (index_lt src) rfl rfl
    rfl ?_
  have hlow := directLow?_register none false src.byteNeedsRex (.two 0xB6) dst.index .inr
  simp [hlow]

theorem reads_movsx_byte (dst src : Gpr) :
    Reads (Instr.movsx .byte dst src).encode (.instr (.movsx .byte dst src)) := by
  refine reads_direct none true (.two 0xBE) false (index_lt dst) (index_lt src) rfl rfl rfl ?_
  have hlow := directLow?_register none true false (.two 0xBE) dst.index fun h :
    src.byteNeedsRex = true => .inl rfl
  simp [hlow]

theorem reads_setcc (cond : Cond) (reg : Gpr) :
    Reads (Instr.setcc cond reg).encode (.instr (.setcc cond reg)) := by
  obtain ⟨hrow, hcode⟩ := row_add_code 0x90 rfl cond
  rw [Instr.encode]
  -- Only the row and the condition matter from here on.
  generalize 0x90 + UInt8.ofNat cond.code = b at *
  refine reads_direct none false (.two b) reg.byteNeedsRex (by decide) (index_lt reg) rfl ?_ ?_ ?_
  · simp [OpcodeBytes.layout?, hrow]
  · simp [OpcodeBytes.immLength, hrow]
  · have hlow := directLow?_register none false reg.byteNeedsRex (.two b) 0 .inr
    simp [hrow, hcode, hlow]

theorem reads_cmov (cond : Cond) (dst src : Gpr) :
    Reads (Instr.cmov cond dst src).encode (.instr (.cmov cond dst src)) := by
  obtain ⟨hrow, hcode⟩ := row_add_code 0x40 rfl cond
  rw [Instr.encode]
  generalize 0x40 + UInt8.ofNat cond.code = b at *
  refine reads_direct none true (.two b) false (index_lt dst) (index_lt src) rfl ?_ ?_ ?_
  · simp [OpcodeBytes.layout?, hrow]
  · simp [OpcodeBytes.immLength, hrow]
  · simp [hrow, hcode]

theorem immediate_toInt32_of_fits {imm : UInt64} (hlo : Int32.minValue.toInt ≤ imm.toInt64.toInt)
    (hhi : imm.toInt64.toInt ≤ Int32.maxValue.toInt) :
    immediate imm.toUInt32.toInt32 = imm := by
  have hword : imm.toUInt32.toInt32.toInt = if 2 * imm.toUInt32.toNat < 2 ^ 32 then
      (imm.toUInt32.toNat : Int) else imm.toUInt32.toNat - 2 ^ 32 :=
    BitVec.toInt_eq_toNat_cond imm.toUInt32.toBitVec
  have hquad : imm.toInt64.toInt = if 2 * imm.toNat < 2 ^ 64 then (imm.toNat : Int)
      else imm.toNat - 2 ^ 64 := BitVec.toInt_eq_toNat_cond imm.toBitVec
  have hlow : imm.toUInt32.toNat = imm.toNat % 2 ^ 32 := UInt64.toNat_toUInt32 imm
  have hlt := imm.toNat_lt
  have hmin : Int32.minValue.toInt = -2 ^ 31 := by decide
  have hmax : Int32.maxValue.toInt = 2 ^ 31 - 1 := by decide
  have heq : imm.toUInt32.toInt32.toInt64 = imm.toInt64 := by
    rw [← Int64.toInt_inj, Int32.toInt_toInt64, hword]
    split <;> split at hquad <;> omega
  rw [immediate, heq]
  rfl

/-- A constant load is read back as itself, or as the move that it is. -/
theorem exists_reads_movImm (dst : Gpr) (imm : UInt64) :
    ∃ j, (Instr.movImm dst imm).Same j ∧ Reads (Instr.movImm dst imm).encode (.instr j) := by
  rw [Instr.encode, Instr.encodeMovImm]
  -- The three lengths: a dword that is zero-extended, one that is sign-extended, a quadword.
  split
  · next hlt =>
    have himm : UInt64.ofNat (Bytes.littleEndian (Bytes.ofWord imm 4)) = imm := by
      rw [Bytes.littleEndian_ofWord, ← UInt64.toNat_inj, UInt64.toNat_ofNat']
      have hsize : UInt32.size = 2 ^ 32 := rfl
      omega
    refine ⟨_, .refl _, reads_encodePlusReg false 0xB8 dst _ (by decide) rfl ?_⟩
    simp [himm]
  · split
    · next hfits =>
      have himm := immediate_toInt32_of_fits hfits.1 hfits.2
      refine ⟨.aluImm .mov .qword dst imm.toUInt32.toInt32, ?_, ?_⟩
      · have hsame := Instr.Same.constant dst imm.toUInt32.toInt32
        rwa [himm] at hsame
      · refine reads_encodeReg none true (.one 0xC7) false _ (by decide) (index_lt dst) rfl rfl rfl
          ?_
        simp [signedDword_ofWord]
    · refine ⟨_, .refl _, reads_encodePlusReg true 0xB8 dst _ (by decide) rfl ?_⟩
      simp [ofNat_littleEndian_ofWord]

theorem reads_encodeXmm (legacy b : UInt8) (dst src : Xmm) {i : Instr}
    (hlegacy : isLegacy legacy = true) (hlayout : (OpcodeBytes.two b).layout? = some .modrm)
    (himm : (OpcodeBytes.two b).immLength false (dst.val % 8) = 0)
    (hop : sse? ⟨some legacy, .of false dst.val 0 src.val false, .two b, dst.val,
      .register src.val, []⟩ legacy b = some i) :
    Reads (Instr.encodeXmm legacy b dst src) (.instr i) := by
  refine reads_direct (some legacy) false (.two b) false dst.isLt src.isLt hlegacy hlayout himm ?_
  simp only [op?, hop, Option.map_some]

theorem reads_sse (op : SseOp) (precision : Scalar) (dst src : Xmm) :
    Reads (Instr.sse op precision dst src).encode (.instr (.sse op precision dst src)) := by
  refine reads_encodeXmm precision.legacy op.opcode dst src ?_ ?_ ?_ ?_
  · cases precision <;> rfl
  · cases op <;> rfl
  · cases op <;> rfl
  · cases precision <;> cases op <;> simp [Scalar.legacy, SseOp.opcode]

/-- **Every instruction can be read back.** -/
theorem Instr.exists_reads (i : Instr) : ∃ j, i.Same j ∧ Reads i.encode (.instr j) := by
  cases i with
  | callReg reg =>
    refine ⟨_, .refl _, reads_direct none false (.one 0xFF) false (by decide) (index_lt reg) rfl rfl
      rfl ?_⟩
    simp
  | ret => exact ⟨_, .refl _, reads_bare (.one 0xC3) [] rfl rfl rfl⟩
  | push reg =>
    refine ⟨_, .refl _, reads_plusReg 0x50 reg (by decide) rfl ?_⟩
    simp
  | pop reg =>
    refine ⟨_, .refl _, reads_plusReg 0x58 reg (by decide) rfl ?_⟩
    simp
  | alu op size dst src => exact ⟨_, .refl _, reads_alu op size dst src⟩
  | aluImm op size dst imm => exact ⟨_, .refl _, reads_aluImm op size dst imm⟩
  | movImm dst imm => exact exists_reads_movImm dst imm
  | not size reg =>
    refine ⟨_, .refl _, reads_direct none size.isWide (.one 0xF7) false (by decide) (index_lt reg)
      rfl rfl rfl ?_⟩
    cases size <;> simp
  | neg size reg =>
    refine ⟨_, .refl _, reads_direct none size.isWide (.one 0xF7) false (by decide) (index_lt reg)
      rfl rfl rfl ?_⟩
    cases size <;> simp
  | shiftImm op size reg imm => exact ⟨_, .refl _, reads_shiftImm op size reg imm⟩
  | shiftCl op size reg => exact ⟨_, .refl _, reads_shiftCl op size reg⟩
  | imul size dst src =>
    refine ⟨_, .refl _, reads_direct none size.isWide (.two 0xAF) false (index_lt dst)
      (index_lt src) rfl rfl rfl ?_⟩
    cases size <;> simp
  | mulWide src =>
    refine ⟨_, .refl _, reads_direct none true (.one 0xF7) false (by decide) (index_lt src) rfl rfl
      rfl ?_⟩
    simp
  | movsx source dst src =>
    cases source with
    | byte => exact ⟨_, .refl _, reads_movsx_byte dst src⟩
    | word =>
      refine ⟨_, .refl _, reads_direct none true (.two 0xBF) false (index_lt dst) (index_lt src)
        rfl rfl rfl ?_⟩
      simp
    | dword =>
      refine ⟨_, .refl _, reads_direct none true (.one 0x63) false (index_lt dst) (index_lt src)
        rfl rfl rfl ?_⟩
      simp
  | movzx source dst src =>
    cases source with
    | byte => exact ⟨_, .refl _, reads_movzx_byte dst src⟩
    | word =>
      refine ⟨_, .refl _, reads_direct none false (.two 0xB7) false (index_lt dst) (index_lt src)
        rfl rfl rfl ?_⟩
      simp
  | setcc cond reg => exact ⟨_, .refl _, reads_setcc cond reg⟩
  | cmov cond dst src => exact ⟨_, .refl _, reads_cmov cond dst src⟩
  | load dst base disp =>
    refine ⟨_, .refl _, reads_memory (.one 0x8B) base disp (index_lt dst) rfl rfl ?_⟩
    simp
  | store base disp src =>
    refine ⟨_, .refl _, reads_memory (.one 0x89) base disp (index_lt src) rfl rfl ?_⟩
    simp
  | storeImm base disp imm =>
    refine ⟨_, .refl _, reads_encodeMem true (.one 0xC7) base disp (dwordBytes imm) (by decide) rfl
      rfl ?_⟩
    simp [signedDword_dwordBytes]
  | cmpMem base disp imm =>
    refine ⟨_, .refl _, reads_encodeMem true (.one 0x83) base disp [imm.toUInt8] (by decide) rfl
      rfl ?_⟩
    simp
  | cmpMemByte base disp imm =>
    refine ⟨_, .refl _, reads_encodeMem false (.one 0x80) base disp [imm] (by decide) rfl rfl ?_⟩
    simp
  | movqToXmm dst src =>
    refine ⟨_, .refl _, reads_direct (some 0x66) true (.two 0x6E) false dst.isLt (index_lt src) rfl
      rfl rfl ?_⟩
    simp
  | movqFromXmm dst src =>
    refine ⟨_, .refl _, reads_direct (some 0x66) true (.two 0x7E) false src.isLt (index_lt dst) rfl
      rfl rfl ?_⟩
    simp
  | movsd dst src =>
    refine ⟨_, .refl _, reads_encodeXmm 0xF2 0x10 dst src rfl rfl rfl ?_⟩
    simp
  | sse op precision dst src => exact ⟨_, .refl _, reads_sse op precision dst src⟩
  | cvtsd2ss dst src =>
    refine ⟨_, .refl _, reads_encodeXmm 0xF2 0x5A dst src rfl rfl rfl ?_⟩
    simp
  | cvtss2sd dst src =>
    refine ⟨_, .refl _, reads_encodeXmm 0xF3 0x5A dst src rfl rfl rfl ?_⟩
    simp
  | ucomisd a b =>
    refine ⟨_, .refl _, reads_encodeXmm 0x66 0x2E a b rfl rfl rfl ?_⟩
    simp
  | pmaxub dst src =>
    refine ⟨_, .refl _, reads_encodeXmm 0x66 0xDE dst src rfl rfl rfl ?_⟩
    simp
  | pcmpeqb dst src =>
    refine ⟨_, .refl _, reads_encodeXmm 0x66 0x74 dst src rfl rfl rfl ?_⟩
    simp
  | pmovmskb dst src =>
    refine ⟨_, .refl _, reads_direct (some 0x66) false (.two 0xD7) false (index_lt dst) src.isLt rfl
      rfl rfl ?_⟩
    simp

/-! ### Sequences -/

/-- The bytes of code. -/
def Op.encode : Op → List UInt8
  | .instr i => i.encode
  | .jump distance => [0xE9] ++ dwordBytes distance
  | .jumpIf cond distance => [0x0F, 0x80 + UInt8.ofNat cond.code] ++ dwordBytes distance

/-- Code that is the same for the processor. -/
inductive Op.Same : Op → Op → Prop where
  | instr {i j : Instr} (h : i.Same j) : Same (.instr i) (.instr j)
  | jump (distance : Int32) : Same (.jump distance) (.jump distance)
  | jumpIf (cond : Cond) (distance : Int32) : Same (.jumpIf cond distance) (.jumpIf cond distance)

theorem reads_jumpIf (cond : Cond) (distance : Int32) :
    Reads (Op.jumpIf cond distance).encode (.jumpIf cond distance) := by
  obtain ⟨hrow, hcode⟩ := row_add_code 0x80 rfl cond
  rw [Op.encode]
  generalize 0x80 + UInt8.ofNat cond.code = b at *
  refine reads_bare (.two b) (dwordBytes distance) ?_ ?_ ?_
  · simp [OpcodeBytes.layout?, hrow]
  · simp [OpcodeBytes.immLength, hrow, length_dwordBytes]
  · simp [hrow, hcode, signedDword_dwordBytes]

theorem Op.exists_reads (op : Op) : ∃ op', op.Same op' ∧ Reads op.encode op' := by
  cases op with
  | instr i =>
    obtain ⟨j, hsame, hreads⟩ := i.exists_reads
    exact ⟨.instr j, .instr hsame, hreads⟩
  | jump distance =>
    refine ⟨_, .jump distance, reads_bare (.one 0xE9) (dwordBytes distance) rfl rfl ?_⟩
    simp [signedDword_dwordBytes]
  | jumpIf cond distance => exact ⟨_, .jumpIf cond distance, reads_jumpIf cond distance⟩

theorem parseAll_append {bytes rest : List UInt8} {e : Encoding}
    (h : parse (bytes ++ rest) = some (e, rest)) (hne : bytes ≠ []) :
    parseAll (bytes ++ rest) = (parseAll rest).map (e :: ·) := by
  have hlength : rest.length < (bytes ++ rest).length := by
    have hpos := List.length_pos_iff.2 hne
    rw [List.length_append]
    omega
  rw [parseAll, if_neg (by simp [hne]), h]
  exact if_pos hlength

theorem Reads.ne_nil {bytes : List UInt8} {op : Op} (h : Reads bytes op) : bytes ≠ [] := by
  rintro rfl
  obtain ⟨e, hparse, -⟩ := h []
  cases hparse

/-- The fields say what the code is. -/
def Encoding.Matches (e : Encoding) (op : Op) : Prop :=
  e.Plain ∧ ∃ op', e.op? = some op' ∧ op.Same op'

/-- **Sequences are read back, one instruction after the other.** -/
theorem exists_parseAll (ops : List Op) :
    ∃ l, parseAll (ops.flatMap Op.encode) = some l ∧ List.Forall₂ Encoding.Matches l ops := by
  induction ops with
  | nil => exact ⟨[], by rw [List.flatMap_nil, parseAll, if_pos rfl], .nil⟩
  | cons op rest ih =>
    obtain ⟨l, hl, hmatches⟩ := ih
    obtain ⟨op', hsame, hreads⟩ := op.exists_reads
    obtain ⟨e, hparse, hop, hplain⟩ := hreads (rest.flatMap Op.encode)
    refine ⟨e :: l, ?_, .cons ⟨hplain, op', hop, hsame⟩ hmatches⟩
    rw [List.flatMap_cons, parseAll_append hparse hreads.ne_nil, hl, Option.map_some]

/-! ### Emitted code -/

/-- What a call appends, if a jump goes over `distance`. -/
def Emission.op (distance : Int32) : Emission → Op
  | .instr i => .instr i
  | .jump _ => .jump distance
  | .jumpIf cond _ => .jumpIf cond distance

/-- What calls append, if the `n`-th of them jumps over `distance n`. -/
def Emission.ops (distance : Nat → Int32) (code : List Emission) : List Op :=
  code.mapIdx fun n c => c.op (distance n)

theorem Emission.encode_op_zero (c : Emission) : (c.op 0).encode = c.bytes := by
  have hzero : dwordBytes 0 = List.replicate 4 0 := by decide
  cases c with
  | instr i => simp [op, Op.encode, bytes, head, label?]
  | jump label =>
    rw [op, Op.encode, hzero]
    rfl
  | jumpIf cond label =>
    rw [op, Op.encode, hzero]
    rfl

namespace Emitter

theorem buf_added (e : Emitter) (code : List Emission) :
    (code.foldl add e).buf = e.buf.append (code.flatMap Emission.bytes) := by
  induction code generalizing e with
  | nil => rw [List.foldl_nil, List.flatMap_nil, CodeBuffer.append_nil]
  | cons c rest ih =>
    rw [List.foldl_cons, ih, add_eq, List.flatMap_cons, CodeBuffer.append_append]

/-- **Emitted code can be read back.**  The bytes that calls append are taken apart into one
instruction for each call, with its operation, operands and immediate, and no byte is left over;
also when jumps have got their distances.  Memory is never reached from the next instruction or
through an index, and no high byte is named. -/
theorem added_code_readable (e : Emitter) (code : List Emission) (distance : Nat → Int32) :
    (code.foldl add e).buf = e.buf.append ((Emission.ops (fun _ => 0) code).flatMap Op.encode) ∧
      ∃ l, parseAll ((Emission.ops distance code).flatMap Op.encode) = some l ∧
        List.Forall₂ Encoding.Matches l (Emission.ops distance code) := by
  refine ⟨?_, exists_parseAll _⟩
  have hops : Emission.ops (fun _ => 0) code = code.map (Emission.op 0) :=
    List.ext_getElem (by simp [Emission.ops]) (by simp [Emission.ops])
  rw [buf_added, hops, List.flatMap_map]
  simp only [Emission.encode_op_zero]

end Emitter

end Host

end AlphaMachine
