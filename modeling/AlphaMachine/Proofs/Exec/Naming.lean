import AlphaMachine.Proofs.Exec.Reservation
import AlphaMachine.Proofs.Float.Bits
import AlphaMachine.Proofs.Isa.Registrations

/-!
# The disassembler names what is executed

Naming a word and executing it read the same function code in different ways: execution cuts it to
a slot, which names an operation, and naming looks at the whole code.  The two agree on every word
that has an operation: its name is the name of its slot.

CVTTS and CVTST share a slot.  There the name tells CVTST from CVTTS by all eleven function bits and
execution tells them apart by the low ten, so that CVTST/S is executed as CVTST, by copying, and is
called "cvtts".

* `Instruction.mnemonic?_decode` : away from the shared slot, the name of a word is that of its
  key;
* `copiesImage_iff` : which words of the shared slot copy, since rounding changes some image;
* `exists_named_of_operation` : the names of the words with an operation.
-/

namespace AlphaMachine

/-! ### Function codes of words -/

namespace Opcode

variable {op : Opcode} {code : Nat}

/-- Floating operate names are given by the slot, but for the one that CVTTS and CVTST share. -/
theorem functionName?_mod (hfloat : op.isFloatOperate = true)
    (hslot : op = .fltI → code % 0x40 ≠ 0x2C) :
    op.functionName? (code % 0x40) = op.functionName? code := by
  cases op <;> cases hfloat
  case fltI =>
    have hne : code ≠ cvtstFunction := by
      rintro rfl
      exact hslot rfl rfl
    have hne' : code % 0x40 ≠ cvtstFunction := by
      unfold cvtstFunction
      omega
    simp only [functionName?, if_neg hne, if_neg hne', Nat.mod_mod]
  all_goals simp only [functionName?, Nat.mod_mod]

theorem functionBits_of_operate (hformat : op.format = .operate)
    (hfloat : op.isFloatOperate = false) : op.functionBits = some 7 := by
  revert hformat hfloat
  cases op <;> decide

end Opcode

/-- The slot that CVTTS and CVTST share. -/
def Key.cvttsSlot : Key := ⟨.fltI, some 0x2C⟩

/-- The function code of CVTST with the /S qualifier. -/
def Opcode.cvtstSFunction : Nat := 0x6AC

namespace Instruction

variable {word : UInt32}

/-- The function code of a word that is not floating operate is its own slot. -/
theorem masked_functionCode {code : Nat} (hadmitted : (decode word).Admitted)
    (hfloat : (decode word).opcode.isFloatOperate = false)
    (hcode : (decode word).functionCode = some code) :
    (decode word).opcode.masked code = some code := by
  have hlt := @function_lt_of_decode word
  have hshape := shape_decode word
  have hpal := (hadmitted code hcode).1
  generalize decode word = i at hlt hshape hpal hfloat hcode ⊢
  cases i with
  | operate opcode ra rb function rc =>
    cases hcode
    have hformat : opcode.format = .operate := (congrArg Prod.fst hshape).symm
    exact Opcode.masked_of_lt (Opcode.functionBits_of_operate hformat hfloat) (hlt rfl)
  | floatOperate opcode fa fb function fc =>
    have htrue : opcode.isFloatOperate = true := (congrArg Prod.snd hshape).symm
    cases htrue.symm.trans hfloat
  | memory opcode ra rb displacement =>
    have hdisplacement := displacement.toUInt16.toNat_lt
    cases opcode <;> cases hcode
    · refine Opcode.masked_of_lt rfl ?_
      rw [Nat.shiftRight_eq_div_pow]
      omega
    · refine Opcode.masked_of_lt rfl ?_
      rw [Nat.shiftRight_eq_div_pow]
      omega
  | branch opcode ra displacement => cases hcode
  | pal function =>
    cases hcode
    exact Opcode.masked_of_lt rfl (Nat.lt_succ_of_le (hpal rfl))

/-- Away from the slot of CVTTS, an admitted word has the name of its key. -/
theorem mnemonic?_decode (hadmitted : (decode word).Admitted)
    (hslot : (decode word).maskedKey ≠ .cvttsSlot) :
    (decode word).mnemonic? = (decode word).maskedKey.mnemonic? := by
  rw [mnemonic?, maskedKey, Key.mnemonic?]
  cases hcode : (decode word).functionCode with
  | none => rfl
  | some code =>
    rw [Option.bind_some]
    cases hfloat : (decode word).opcode.isFloatOperate with
    | false => rw [masked_functionCode hadmitted hfloat hcode]
    | true =>
      rw [maskedKey, hcode, Option.bind_some, Opcode.masked_of_floatOperate hfloat] at hslot
      rw [Opcode.masked_of_floatOperate hfloat]
      refine (Opcode.functionName?_mod hfloat fun hopcode hmod => hslot ?_).symm
      rw [hopcode, hmod]
      rfl

/-- The fields of a word of the IEEE family. -/
theorem decode_of_opcode (h : (decode word).opcode = .fltI) :
    decode word =
      .floatOperate .fltI (regField word 21) (regField word 16) (bitField word 5 11)
        (regField word 0) := by
  unfold decode at h ⊢
  generalize Opcode.ofBits (bitField word 26 6) = opcode at h ⊢
  cases opcode <;> first | rfl | cases h

/-- The function code of a word in the slot of CVTTS. -/
theorem function_mod_of_cvttsSlot (h : (decode word).maskedKey = .cvttsSlot) :
    bitField word 5 11 % 0x40 = 0x2C := by
  have hopcode : (decode word).opcode = .fltI := congrArg Key.opcode h
  have hslot := congrArg Key.function h
  rw [maskedKey, decode_of_opcode hopcode] at hslot
  exact Option.some.inj hslot

/-- In the slot of CVTTS, the whole function code decides about the name. -/
theorem mnemonic?_of_cvttsSlot (h : (decode word).maskedKey = .cvttsSlot) :
    (decode word).mnemonic? =
      some (if bitField word 5 11 = Opcode.cvtstFunction then "cvtst" else "cvtts") := by
  have hopcode : (decode word).opcode = .fltI := congrArg Key.opcode h
  rw [decode_of_opcode hopcode]
  change (if bitField word 5 11 = Opcode.cvtstFunction then some "cvtst"
    else Opcode.ieeeNames.lookup (bitField word 5 11 % 0x40)) = _
  rw [function_mod_of_cvttsSlot h]
  split <;> rfl

end Instruction

/-! ### Copying -/

namespace FloatImage

theorem card_word : Fintype.card UInt64 = 2 ^ 64 := FinEnum.card_eq_fintypeCard.symm

theorem card_longword : Fintype.card UInt32 = 2 ^ 32 := FinEnum.card_eq_fintypeCard.symm

/-- Rounding to single precision changes some image: there are fewer singles than images. -/
theorem exists_ofResult_single_ne : ∃ b, ofResult .single (Float.ofBits b) ≠ b := by
  by_contra hall
  have hkept : ∀ b, ofResult .single (Float.ofBits b) = b := by simpa using hall
  have hinj : Function.Injective fun b : UInt64 => (Float.ofBits b).toFloat32.toBits := by
    intro b b' h
    have hsingle : (Float.ofBits b).toFloat32 = (Float.ofBits b').toFloat32 :=
      Function.LeftInverse.injective ofBits_toBits_single h
    rw [← hkept b, ← hkept b', ofResult, roundSingle, hsingle]
    rfl
  have hcard := Fintype.card_le_of_injective _ hinj
  rw [card_word, card_longword] at hcard
  exact absurd hcard (by decide)

/-- Rounding to single precision keeps the image of zero.  Processors do so, but it has no proof
here: `Float.toFloat32` and `Float32.toFloat` are opaque, so that nothing decides what they make of
a given number. -/
def SingleKeepsZero : Prop := ofResult .single (Float.ofBits 0) = 0

end FloatImage

/-- Executing the word copies the image of its second source register to its destination, bit for
bit, in every machine with floating instructions enabled. -/
def CopiesImage (word : UInt32) : Prop :=
  ∀ (pc : UInt64) (m : Machine), m.cpu.fpEnabled = true →
    execute word pc m =
      .done (m.writeFp (regField word 0) (m.cpu.readFp (regField word 16))) .next

section Slot

open Instruction

variable {word : UInt32} {op : Operation}

theorem execute_of_cvttsSlot (hop : Operation.ofInstruction? (decode word) = some op)
    (h : (decode word).maskedKey = .cvttsSlot) (pc : UInt64) {m : Machine}
    (hfp : m.cpu.fpEnabled = true) :
    let b := m.cpu.readFp (regField word 16)
    execute word pc m =
      .done (m.writeFp (regField word 0)
        (if isSingleCopy (bitField word 5 11) then b
          else FloatImage.ofResult .single (Float.ofBits b))) .next := by
  obtain ⟨key, hkey, hP⟩ := Operation.entry_of_ofInstruction?
    (P := fun e => e.1 != .cvttsSlot || e.2 == .float .roundSingle) (by decide) hop
  obtain ⟨-, rfl⟩ := key?_decode_eq_some_iff.1 hkey
  obtain rfl : op = .float .roundSingle := by simpa [h] using hP
  rw [execute_of_operation hop, decode_of_opcode (congrArg Key.opcode h)]
  change m.requireFp pc _ = _
  rw [Machine.requireFp, if_pos hfp]
  rfl

/-- A word that does not copy as CVTST rounds every image that its source register can hold, and
keeps it only if the result is dropped or the source is the zero register. -/
theorem copiesImage_iff (hop : Operation.ofInstruction? (decode word) = some op)
    (h : (decode word).maskedKey = .cvttsSlot) :
    CopiesImage word ↔
      isSingleCopy (bitField word 5 11) = true ∨ regField word 0 = Reg.zero ∨
        regField word 16 = Reg.zero ∧ FloatImage.SingleKeepsZero := by
  constructor
  · intro hcopies
    by_cases hcopy : isSingleCopy (bitField word 5 11) = true
    · exact .inl hcopy
    by_cases hfc : regField word 0 = Reg.zero
    · exact .inr (.inl hfc)
    have hkept (cpu : Processor) (hfp : cpu.fpEnabled = true) :
        FloatImage.ofResult .single (Float.ofBits (cpu.readFp (regField word 16))) =
          cpu.readFp (regField word 16) := by
      have hdone := (execute_of_cvttsSlot hop h 0 (m := ⟨cpu, .zeroed 0 0⟩) hfp).symm.trans
        (hcopies 0 ⟨cpu, .zeroed 0 0⟩ hfp)
      have hwritten := congrArg (·.cpu.readFp (regField word 0)) (Outcome.done.inj hdone).1
      rw [if_neg hcopy] at hwritten
      exact (cpu.readFp_writeFp hfc _).symm.trans (hwritten.trans (cpu.readFp_writeFp hfc _))
    by_cases hfb : regField word 16 = Reg.zero
    · refine .inr (.inr ⟨hfb, ?_⟩)
      have hzero := hkept (.startingAt 0) rfl
      rwa [hfb] at hzero
    · obtain ⟨b, hb⟩ := FloatImage.exists_ofResult_single_ne
      have hb' := hkept ((Processor.startingAt 0).writeFp (regField word 16) b) rfl
      rw [Processor.readFp_writeFp _ hfb] at hb'
      exact absurd hb' hb
  · rintro (hcopy | hfc | ⟨hfb, hzero⟩) pc m hfp
    · rw [execute_of_cvttsSlot hop h pc hfp, if_pos hcopy]
    · rw [execute_of_cvttsSlot hop h pc hfp, hfc]
      rfl
    · have hread : m.cpu.readFp (regField word 16) = 0 := by rw [hfb]; rfl
      rw [execute_of_cvttsSlot hop h pc hfp, hread, show _ = _ from hzero, ite_self]

theorem isSingleCopy_iff :
    isSingleCopy (bitField word 5 11) = true ↔
      bitField word 5 11 = Opcode.cvtstFunction ∨ bitField word 5 11 = Opcode.cvtstSFunction := by
  have hlt : bitField word 5 11 < 2 ^ 11 := Nat.mod_lt _ (by decide)
  rw [isSingleCopy, decide_eq_true_iff, Opcode.cvtstFunction, Opcode.cvtstSFunction]
  omega

/-! ### Names -/

/-- How the name of a word goes with its key and with what is executed. -/
structure Named (word : UInt32) (name : String) : Prop where
  /-- The name is that of the disassembler. -/
  mnemonic? : (decode word).mnemonic? = some name
  /-- The key is made of the opcode and the masked function code. -/
  key? : (decode word).key? = some (decode word).maskedKey
  /-- Away from the shared slot, the key has this name. -/
  of_key : (decode word).maskedKey ≠ .cvttsSlot → (decode word).maskedKey.mnemonic? = some name
  /-- So have the other words with the same key and an operation. -/
  of_same_key : (decode word).maskedKey ≠ .cvttsSlot → ∀ word' : UInt32,
    (Operation.ofInstruction? (decode word')).isSome = true →
      (decode word').maskedKey = (decode word).maskedKey → (decode word').mnemonic? = some name
  /-- In the shared slot, one function code is called CVTST. -/
  cvtst_iff : (decode word).maskedKey = .cvttsSlot →
    (name = "cvtst" ↔ bitField word 5 11 = Opcode.cvtstFunction)
  /-- The others are called CVTTS. -/
  cvtts_iff : (decode word).maskedKey = .cvttsSlot →
    (name = "cvtts" ↔ bitField word 5 11 ≠ Opcode.cvtstFunction)
  /-- CVTST and CVTST/S copy.  CVTTS does so only into register 31, where nothing is written, and
  out of it, where it rounds a zero. -/
  copies_iff : (decode word).maskedKey = .cvttsSlot →
    (CopiesImage word ↔
      (bitField word 5 11 = Opcode.cvtstFunction ∨
        bitField word 5 11 = Opcode.cvtstSFunction) ∨ regField word 0 = Reg.zero ∨
          regField word 16 = Reg.zero ∧ FloatImage.SingleKeepsZero)

/-- A word with an operation is admitted, and its key is registered. -/
theorem key?_of_operation (hop : Operation.ofInstruction? (decode word) = some op) :
    (decode word).Admitted ∧ (decode word).key? = some (decode word).maskedKey ∧
      (decode word).maskedKey.mnemonic?.isSome = true := by
  obtain ⟨key, hkey, hname⟩ := Operation.entry_of_ofInstruction?
    (P := fun e => e.1.mnemonic?.isSome) (by decide) hop
  obtain ⟨hadmitted, rfl⟩ := key?_decode_eq_some_iff.1 hkey
  exact ⟨hadmitted, hkey, hname⟩

/-- **Every word with an operation has a name, and the name goes with what is executed,** except
that CVTST/S is called CVTTS. -/
theorem exists_named_of_operation (hop : Operation.ofInstruction? (decode word) = some op) :
    ∃ name, Named word name := by
  obtain ⟨hadmitted, hkey, hsome⟩ := key?_of_operation hop
  have hcopies (h : (decode word).maskedKey = .cvttsSlot) := copiesImage_iff hop h
  simp only [isSingleCopy_iff] at hcopies
  by_cases hslot : (decode word).maskedKey = .cvttsSlot
  · refine ⟨_, mnemonic?_of_cvttsSlot hslot, hkey, absurd hslot, absurd hslot, fun _ => ?_,
      fun _ => ?_, hcopies⟩
    · split <;> simp_all
    · split <;> simp_all
  · obtain ⟨name, hname⟩ := Option.isSome_iff_exists.1 hsome
    refine ⟨name, ?_, hkey, fun _ => hname, fun _ word' hop' hsame => ?_,
      fun h => absurd h hslot, fun h => absurd h hslot, hcopies⟩
    · rw [mnemonic?_decode hadmitted hslot, hname]
    · obtain ⟨op', hop'⟩ := Option.isSome_iff_exists.1 hop'
      rw [← hsame] at hslot hname
      rw [mnemonic?_decode (key?_of_operation hop').1 hslot, hname]

/-- CVTST/S copies register 2 to register 3 and is called "cvtts". -/
theorem exists_named_of_operation_cvtst_s :
    Operation.ofInstruction? (decode 0x5BE2D583) = some (.float .roundSingle) ∧
      (decode 0x5BE2D583).mnemonic? = some "cvtts" ∧ CopiesImage 0x5BE2D583 := by
  have hop : Operation.ofInstruction? (decode 0x5BE2D583) = some (.float .roundSingle) :=
    Operation.ofInstruction?_of_registered .cvttsSlot (by decide) (by decide)
  have hslot : (decode 0x5BE2D583).maskedKey = .cvttsSlot := by decide
  obtain ⟨name, hnamed⟩ := exists_named_of_operation hop
  obtain rfl : name = "cvtts" := (hnamed.cvtts_iff hslot).2 (by decide)
  exact ⟨hop, hnamed.mnemonic?, (hnamed.copies_iff hslot).2 (.inl (.inr (by decide)))⟩

end Slot

end AlphaMachine
