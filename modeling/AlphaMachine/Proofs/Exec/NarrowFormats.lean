import AlphaMachine.Proofs.Exec.Traps
import AlphaMachine.Proofs.Exec.Unaligned
import AlphaMachine.Proofs.Float.NarrowFormats
import AlphaMachine.Proofs.Host.Arithmetic

/-!
# Narrow formats through the floating registers

S-format numbers and longwords come into a floating register by one instruction and leave it by
another.  Each pair of instructions is followed through the register here:

* LDS and STS copy four bytes of memory (`Instruction.executeAll_loadSingle_storeSingle`);
* ITOFS and FTOIS extend the low longword of an integer register
  (`Instruction.executeAll_intToSingle_singleToInt`);
* CVTQL and CVTLQ extend the low longword of a floating register
  (`Instruction.executeAll_quadToLong_longToQuad`), unless CVTQL checks for overflow and finds some.

`Instruction.narrow_formats_survive` puts this together with what becomes of the images.
-/

namespace AlphaMachine

open FloatImage Integer

/-! ### Loaded data -/

namespace Memory

variable {mem : Memory} {address : UInt64} {size : AccessSize} {value : UInt64} {i : Nat}

/-- A load gives the number that the bytes of the datum spell. -/
theorem of_load_eq_ok (h : mem.load address size = .ok value) :
    mem.maps address size.bytes = true ∧
      value.toNat = Bytes.littleEndian (Bytes.slice mem.bytes (mem.index address) size.bytes) := by
  unfold load at h
  split at h
  · cases h
  · split at h
    · cases h
    · next hm =>
      cases h
      have hbound := Bytes.littleEndian_lt (Bytes.slice mem.bytes (mem.index address) size.bytes)
      have hwidth : 256 ^ size.bytes ≤ 2 ^ 64 := by cases size <;> decide
      rw [length_slice] at hbound
      refine ⟨by simpa using hm, ?_⟩
      rw [UInt64.toNat_ofNat', Nat.mod_eq_of_lt (Nat.lt_of_lt_of_le hbound hwidth)]

theorem toNat_load_lt (h : mem.load address size = .ok value) : value.toNat < 256 ^ size.bytes := by
  have hbound := Bytes.littleEndian_lt (Bytes.slice mem.bytes (mem.index address) size.bytes)
  rw [length_slice] at hbound
  rw [(of_load_eq_ok h).2]
  exact hbound

/-- The bytes of a loaded number are those at the address. -/
theorem byte?_of_load (h : mem.load address size = .ok value) (hi : i < size.bytes) :
    mem.byte? (address.toNat + i) = some (byteAt value i) := by
  obtain ⟨hm, hvalue⟩ := of_load_eq_ok h
  have hinside : i < (Bytes.slice mem.bytes (mem.index address) size.bytes).length := by
    rwa [length_slice]
  have hbyte : byteAt value i =
      (Bytes.slice mem.bytes (mem.index address) size.bytes).getD i 0 := by
    rw [← UInt8.toNat_inj, toNat_byteAt _ (Nat.lt_of_lt_of_le hi size.bytes_le), hvalue,
      Bytes.littleEndian_div]
  rw [byte?_of_maps hm hi, hbyte, List.getD_eq_getElem?_getD, List.getElem?_eq_getElem hinside,
    Option.getD_some]

/-- A loaded number that is stored elsewhere is a copy of its bytes. -/
theorem readBytes_write_of_load {address' : UInt64} (h : mem.load address size = .ok value)
    (hstore : mem.storeFault? address' size = none) :
    ∃ bytes, mem.readBytes address size.bytes = .ok bytes ∧
      (mem.write address' size value).readBytes address' size.bytes = .ok bytes := by
  have hword (i : Nat) (hi : i < size.bytes) :
      (Bytes.ofWord value size.bytes)[i]? = some (byteAt value i) :=
    getElem?_ofWord value hi size.bytes_le
  refine ⟨Bytes.ofWord value size.bytes, ?_, ?_⟩
  · refine readBytes_eq_ok (of_load_eq_ok h).1 (Bytes.length_ofWord ..) fun i hi => ?_
    rw [byte?_of_load h hi, hword i hi]
  · refine readBytes_eq_ok ?_ (Bytes.length_ofWord ..) fun i hi => ?_
    · rw [maps_write]
      exact maps_of_storeFault? hstore
    · rw [byte?_write_inside hstore value hi, hword i hi]

end Memory

theorem Machine.readFp_writeFp (m : Machine) {r : Reg} (h : r ≠ Reg.zero) (value : UInt64) :
    (m.writeFp r value).cpu.readFp r = value :=
  m.cpu.readFp_writeFp h value

namespace Instruction

/-! ### Instructions -/

/-- LDS: load an S-format number into `fa`. -/
def loadSingle (fa base : Reg) (displacement : Int16) : Instruction :=
  .memory .lds fa base displacement

/-- STS: store `fa` as an S-format number. -/
def storeSingle (fa base : Reg) (displacement : Int16) : Instruction :=
  .memory .sts fa base displacement

/-- ITOFS: set `fc` to the image of the S-format number in `ra`; nothing reads `fb`. -/
def intToSingle (ra fb fc : Reg) : Instruction := .floatOperate .itfp ra fb 0x004 fc

/-- FTOIS: set `rc` to the S-format number with the image in `fa`; nothing reads `rb`. -/
def singleToInt (fa : Reg) (rb : Operand) (rc : Reg) : Instruction := .operate .fpti fa rb 0x78 rc

/-- CVTQL: set `fc` to the image of the low longword of `fb`; nothing reads `fa`. -/
def quadToLong (fa fb : Reg) (function : Nat) (fc : Reg) : Instruction :=
  .floatOperate .fltL fa fb function fc

/-- CVTLQ: set `fc` to the longword with the image in `fb`; nothing reads `fa`. -/
def longToQuad (fa fb fc : Reg) : Instruction := .floatOperate .fltL fa fb 0x010 fc

/-- The function codes of CVTQL. -/
def IsQuadToLong (function : Nat) : Prop :=
  Opcode.slot? .fltL function = some Operation.quadToLongSlot

instance (function : Nat) : Decidable (IsQuadToLong function) := inferInstanceAs (Decidable (_ = _))

section Steps

variable {m : Machine} (hfp : m.cpu.fpEnabled = true) (pc : UInt64)

include hfp

theorem execute_loadSingle {fa base : Reg} {displacement : Int16} {value : UInt64}
    (hfa : fa ≠ Reg.zero)
    (hload : m.mem.load (m.cpu.readInt base + displacementWord displacement) .long = .ok value) :
    (loadSingle fa base displacement).execute pc m =
      .done (m.writeFp fa (ofSingle value.toUInt32)) .next := by
  have hop : Operation.ofInstruction? (loadSingle fa base displacement) =
      some (.memory (.floatLoad .single)) :=
    Operation.ofInstruction?_of_registered ⟨.lds, none⟩ rfl (by decide)
  rw [execute_of_some hop]
  change m.requireFp pc (if fa = Reg.zero then m.skip else m.loadThen pc _ .long _) = _
  rw [Machine.requireFp, if_pos hfp, if_neg hfa, Machine.loadThen, hload]
  rfl

theorem execute_storeSingle (fa : Reg) {base : Reg} {displacement : Int16}
    (hstore : m.mem.storeFault? (m.cpu.readInt base + displacementWord displacement) .long =
      none) :
    (storeSingle fa base displacement).execute pc m =
      .done ⟨m.cpu.clearLockOnStore (m.cpu.readInt base + displacementWord displacement),
        m.mem.write (m.cpu.readInt base + displacementWord displacement) .long
          (toSingle (m.cpu.readFp fa)).toUInt64⟩ .next := by
  have hop : Operation.ofInstruction? (storeSingle fa base displacement) =
      some (.memory (.floatStore .single)) :=
    Operation.ofInstruction?_of_registered ⟨.sts, none⟩ rfl (by decide)
  rw [execute_of_some hop]
  change m.requireFp pc (m.storeInt pc _ .long _) = _
  rw [Machine.requireFp, if_pos hfp, Machine.storeInt, hstore]

theorem execute_intToSingle (ra fb fc : Reg) :
    (intToSingle ra fb fc).execute pc m =
      .done (m.writeFp fc (ofSingle (m.cpu.readInt ra).toUInt32)) .next := by
  have hop : Operation.ofInstruction? (intToSingle ra fb fc) =
      some (.float (.moveFromInt .single)) :=
    Operation.ofInstruction?_of_registered ⟨.itfp, some 0x04⟩ rfl (by decide)
  rw [execute_of_some hop]
  change m.requireFp pc _ = _
  rw [Machine.requireFp, if_pos hfp]
  rfl

theorem execute_singleToInt (fa : Reg) (rb : Operand) (rc : Reg) :
    (singleToInt fa rb rc).execute pc m =
      .done (m.writeInt rc (signExtendLong (toSingle (m.cpu.readFp fa)).toUInt64)) .next := by
  have hop : Operation.ofInstruction? (singleToInt fa rb rc) =
      some (.operate (.moveFromFloat .single)) :=
    Operation.ofInstruction?_of_registered ⟨.fpti, some 0x78⟩ rfl (by decide)
  rw [execute_of_some hop]
  change m.requireFp pc _ = _
  rw [Machine.requireFp, if_pos hfp]
  rfl

theorem execute_longToQuad (fa fb fc : Reg) :
    (longToQuad fa fb fc).execute pc m =
      .done (m.writeFp fc (signExtendLong (toSingle (m.cpu.readFp fb)).toUInt64)) .next := by
  have hop : Operation.ofInstruction? (longToQuad fa fb fc) = some (.float .longToQuad) :=
    Operation.ofInstruction?_of_registered ⟨.fltL, some 0x10⟩ rfl (by decide)
  rw [execute_of_some hop]
  change m.requireFp pc _ = _
  rw [Machine.requireFp, if_pos hfp]
  rfl

theorem execute_quadToLong {function : Nat} (hfunction : IsQuadToLong function) (fa fb fc : Reg) :
    (quadToLong fa fb function fc).execute pc m =
      if checksOverflow function = true ∧ signExtendLong (m.cpu.readFp fb) ≠ m.cpu.readFp fb then
        .trapped m.noteOverflow ⟨.integerOverflow, pc, none⟩
      else .done (m.writeFp fc (ofLong (m.cpu.readFp fb))) .next := by
  have hkey : (quadToLong fa fb function fc).key? =
      some ⟨.fltL, some Operation.quadToLongSlot⟩ :=
    congrArg (Option.map (Key.mk .fltL ∘ some)) hfunction
  have hop : Operation.ofInstruction? (quadToLong fa fb function fc) =
      some (.float .quadToLong) :=
    Operation.ofInstruction?_of_registered _ hkey (by decide)
  rw [execute_of_some hop]
  change m.requireFp pc _ = _
  rw [Machine.requireFp, if_pos hfp]
  rfl

end Steps

/-! ### The ways through a register -/

section Ways

variable {m : Machine} (hfp : m.cpu.fpEnabled = true) (pc : UInt64)

include hfp

/-- LDS and STS copy four bytes. -/
theorem executeAll_loadSingle_storeSingle {fa base base' : Reg} {displacement displacement' : Int16}
    (hfa : fa ≠ Reg.zero) {A B value : UInt64}
    (hA : m.cpu.readInt base + displacementWord displacement = A)
    (hB : m.cpu.readInt base' + displacementWord displacement' = B)
    (hload : m.mem.load A .long = .ok value) (hstore : m.mem.storeFault? B .long = none) :
    executeAll [loadSingle fa base displacement, storeSingle fa base' displacement'] pc m =
      .done ⟨(m.cpu.writeFp fa (ofSingle value.toUInt32)).clearLockOnStore B,
        m.mem.write B .long value⟩ .next := by
  subst hA hB
  have hlong : value.toUInt32.toUInt64 = value := by
    have hlt : value.toNat < 2 ^ 32 := Memory.toNat_load_lt hload
    rw [← UInt64.toNat_inj, UInt32.toNat_toUInt64, UInt64.toNat_toUInt32, Nat.mod_eq_of_lt hlt]
  -- The load leaves the image of the number behind, and the store takes the number back out of it.
  have hcopy : (toSingle ((m.writeFp fa (ofSingle value.toUInt32)).cpu.readFp fa)).toUInt64 =
      value := by
    rw [Machine.readFp_writeFp _ hfa, toSingle_ofSingle, hlong]
  refine executeAll_cons (execute_loadSingle hfp pc hfa hload) ?_
  refine executeAll_cons
    (execute_storeSingle (m := m.writeFp fa (ofSingle value.toUInt32)) hfp (pc + 4) fa hstore) ?_
  rw [hcopy]
  rfl

/-- ITOFS and FTOIS extend the low longword of a register. -/
theorem executeAll_intToSingle_singleToInt (ra fb : Reg) {fc : Reg} (rb : Operand) (rc : Reg)
    (hfc : fc ≠ Reg.zero) :
    executeAll [intToSingle ra fb fc, singleToInt fc rb rc] pc m =
      .done ((m.writeFp fc (ofSingle (m.cpu.readInt ra).toUInt32)).writeInt rc
        (signExtendLong (m.cpu.readInt ra))) .next := by
  have hvalue : signExtendLong (toSingle
      ((m.writeFp fc (ofSingle (m.cpu.readInt ra).toUInt32)).cpu.readFp fc)).toUInt64 =
        signExtendLong (m.cpu.readInt ra) := by
    rw [Machine.readFp_writeFp _ hfc, toSingle_ofSingle, signExtendLong_toUInt64 rfl]
  refine executeAll_cons (execute_intToSingle hfp pc ra fb fc) ?_
  refine executeAll_cons
    (execute_singleToInt (m := m.writeFp fc _) hfp (pc + 4) fc rb rc) ?_
  rw [hvalue]
  rfl

/-- CVTQL, unless it traps, and CVTLQ extend the low longword of a register. -/
theorem executeAll_quadToLong_longToQuad {function : Nat} (hfunction : IsQuadToLong function)
    (fa fa' fb fc' : Reg) {fc : Reg} (hfc : fc ≠ Reg.zero)
    (hdone : ¬ (checksOverflow function = true ∧
      signExtendLong (m.cpu.readFp fb) ≠ m.cpu.readFp fb)) :
    executeAll [quadToLong fa fb function fc, longToQuad fa' fc fc'] pc m =
      .done ((m.writeFp fc (ofLong (m.cpu.readFp fb))).writeFp fc'
        (signExtendLong (m.cpu.readFp fb))) .next := by
  have hvalue : signExtendLong (toSingle
      ((m.writeFp fc (ofLong (m.cpu.readFp fb))).cpu.readFp fc)).toUInt64 =
        signExtendLong (m.cpu.readFp fb) := by
    rw [Machine.readFp_writeFp _ hfc, toSingle_ofLong, signExtendLong_toUInt64 rfl]
  have hfirst := execute_quadToLong hfp pc hfunction fa fb fc
  rw [if_neg hdone] at hfirst
  refine executeAll_cons hfirst ?_
  refine executeAll_cons (execute_longToQuad (m := m.writeFp fc _) hfp (pc + 4) fa' fc fc') ?_
  rw [hvalue]
  rfl

end Ways

/-- What becomes of narrow formats on a machine, at an address of the first instruction. -/
structure KeepsNarrowFormats (m : Machine) (pc : UInt64) : Prop where
  /-- LDS and STS copy four bytes and leave the rest of the memory alone. -/
  memory : ∀ (fa base base' : Reg) (displacement displacement' : Int16) {A B : UInt64},
    fa ≠ Reg.zero → m.cpu.readInt base + displacementWord displacement = A →
    m.cpu.readInt base' + displacementWord displacement' = B →
    Memory.isAligned A .long = true → m.mem.maps A 4 = true →
    m.mem.storeFault? B .long = none →
    ∃ m' bytes, executeAll [loadSingle fa base displacement, storeSingle fa base' displacement']
        pc m = .done m' .next ∧
      m.mem.readBytes A 4 = .ok bytes ∧ m'.mem.readBytes B 4 = .ok bytes ∧
      ∀ a, a < B.toNat ∨ B.toNat + 4 ≤ a → m'.mem.byte? a = m.mem.byte? a
  /-- ITOFS and FTOIS extend the low longword of a register. -/
  integer : ∀ (ra fb fc : Reg) (rb : Operand) (rc : Reg), fc ≠ Reg.zero → rc ≠ Reg.zero →
    ∃ m', executeAll [intToSingle ra fb fc, singleToInt fc rb rc] pc m = .done m' .next ∧
      m'.cpu.readInt rc = signExtendLong (m.cpu.readInt ra)
  /-- CVTQL without a check and CVTLQ extend the low longword of a register. -/
  longword : ∀ {function : Nat} (fa fa' fb fc fc' : Reg), IsQuadToLong function →
    checksOverflow function = false → fc ≠ Reg.zero → fc' ≠ Reg.zero →
    ∃ m', executeAll [quadToLong fa fb function fc, longToQuad fa' fc fc'] pc m = .done m' .next ∧
      m'.cpu.readFp fc' = signExtendLong (m.cpu.readFp fb)
  /-- CVTQL with a check traps exactly if the quadword is not a longword. -/
  checked : ∀ {function : Nat} (fa fb fc : Reg), IsQuadToLong function →
    checksOverflow function = true →
    ((∃ m' trap, (quadToLong fa fb function fc).execute pc m = .trapped m' trap) ↔
      m.cpu.readFp fb ≠ signExtendLong (m.cpu.readFp fb))

theorem keepsNarrowFormats {m : Machine} (hfp : m.cpu.fpEnabled = true) (pc : UInt64) :
    KeepsNarrowFormats m pc where
  memory := by
    intro fa base base' displacement displacement' A B hfa hA hB haligned hmaps hstore
    obtain ⟨value, hload⟩ : ∃ value, m.mem.load A .long = .ok value := by
      have hm : m.mem.maps A AccessSize.long.bytes = true := hmaps
      simp [Memory.load, haligned, hm]
    obtain ⟨bytes, hread, hwritten⟩ := Memory.readBytes_write_of_load hload hstore
    exact ⟨_, bytes, executeAll_loadSingle_storeSingle hfp pc hfa hA hB hload hstore, hread,
      hwritten, fun a ha => Memory.byte?_write hstore value ha⟩
  integer := by
    intro ra fb fc rb rc hfc hrc
    exact ⟨_, executeAll_intToSingle_singleToInt hfp pc ra fb rb rc hfc,
      Machine.readInt_writeInt_self _ _ hrc⟩
  longword := by
    intro function fa fa' fb fc fc' hfunction hunchecked hfc hfc'
    have hdone : ¬ (checksOverflow function = true ∧
        signExtendLong (m.cpu.readFp fb) ≠ m.cpu.readFp fb) := by simp [hunchecked]
    exact ⟨_, executeAll_quadToLong_longToQuad hfp pc hfunction fa fa' fb fc' hfc hdone,
      Machine.readFp_writeFp _ hfc' _⟩
  checked := by
    intro function fa fb fc hfunction hchecks
    rw [execute_quadToLong hfp pc hfunction, hchecks]
    by_cases hlong : signExtendLong (m.cpu.readFp fb) = m.cpu.readFp fb
    · simp [hlong]
    · simp [hlong, Ne.symm hlong]

/-- **Narrow formats survive the floating registers.**  Every S-format number comes back from its
image, and the images that come back from memory are exactly those of S-format numbers, which have
an exponent and a fraction of that format.  With floating instructions enabled, the three pairs of
instructions between the files and memory lose nothing, whatever is in the registers and in
memory. -/
theorem narrow_formats_survive :
    (∀ s, toSingle (ofSingle s) = s) ∧
      (∀ t, (∃ s, ofSingle s = t) ↔ ofSingle (toSingle t) = t) ∧
      (∀ t, (∃ s, ofSingle s = t) ↔ HasSingleForm t) ∧
      ∀ m pc, m.cpu.fpEnabled = true → KeepsNarrowFormats m pc :=
  ⟨toSingle_ofSingle, fun t => (exists_ofSingle_iff t).trans (ofSingle_toSingle_iff t).symm,
    exists_ofSingle_iff, fun _ pc hfp => keepsNarrowFormats hfp pc⟩

/-- A machine whose memory starts with a NaN that has a payload, with a pointer to it in register 16
and quadwords that are no longwords in integer register 17 and floating register 3. -/
def narrowing : Machine where
  cpu := ((({} : Processor).writeInt 16 0x1000).writeInt 17 0xA1B2C3D47F800001).writeFp 3
    0xA1B2C3D4E5F60718
  mem :=
    { base := 0x1000
      bytes := #[0x01, 0x00, 0x80, 0xFF, 0x14, 0x15, 0x16, 0x17]
      readOnly := none
      size_lt := by decide }

/-- The words LDS F1, 0(R16) and STS F1, 4(R16) copy the NaN with its payload; ITOFS R17, F2 and
FTOIS F2, R3 extend the low longword of register 17; CVTQL F3, F4 and CVTLQ F4, F5 extend that of
register 3; and CVTQL/V F3, F4 traps. -/
theorem narrow_formats_survive_narrowing :
    (∃ m', executeAll ([0x88300000, 0x98300004].map decode) 0x2000 narrowing = .done m' .next ∧
      m'.mem.readBytes 0x1004 4 = .ok [0x01, 0x00, 0x80, 0xFF]) ∧
    (∃ m', executeAll ([0x523F0082, 0x705F0F03].map decode) 0x2000 narrowing = .done m' .next ∧
      m'.cpu.readInt 3 = 0x7F800001) ∧
    (∃ m', executeAll ([0x5FE30604, 0x5FE40205].map decode) 0x2000 narrowing = .done m' .next ∧
      m'.cpu.readFp 5 = 0xFFFFFFFFE5F60718) ∧
    ∃ m' trap, (decode 0x5FE32604).execute 0x2000 narrowing = .trapped m' trap := by
  have hmemory : [0x88300000, 0x98300004].map decode = [loadSingle 1 16 0, storeSingle 1 16 4] := by
    decide
  have hinteger : [0x523F0082, 0x705F0F03].map decode =
      [intToSingle 17 31 2, singleToInt 2 (.register 31) 3] := by decide
  have hlongword : [0x5FE30604, 0x5FE40205].map decode =
      [quadToLong 31 3 0x030 4, longToQuad 31 4 5] := by decide
  have hchecked : decode 0x5FE32604 = quadToLong 31 3 0x130 4 := by decide
  obtain ⟨-, -, -, hkeeps⟩ := narrow_formats_survive
  have h := hkeeps narrowing 0x2000 rfl
  have hfirst : narrowing.cpu.readInt 16 + displacementWord 0 = 0x1000 := by decide
  have hsecond : narrowing.cpu.readInt 16 + displacementWord 4 = 0x1004 := by decide
  obtain ⟨m₁, bytes, hrun₁, hread, hcopy, -⟩ := h.memory 1 16 16 0 4 (by decide) hfirst hsecond
    (by decide) (by decide) (by decide)
  have hbytes : narrowing.mem.readBytes 0x1000 4 = .ok [0x01, 0x00, 0x80, 0xFF] := by rfl
  cases hbytes.symm.trans hread
  obtain ⟨m₂, hrun₂, hint⟩ := h.integer 17 31 2 (.register 31) 3 (by decide) (by decide)
  have hcodes : IsQuadToLong 0x030 ∧ IsQuadToLong 0x130 := by decide
  obtain ⟨m₃, hrun₃, hfp⟩ := h.longword 31 31 3 4 5 hcodes.1 (by decide) (by decide) (by decide)
  have htrap := (h.checked 31 3 4 hcodes.2 (by decide)).2 (by decide)
  rw [hmemory, hinteger, hlongword]
  refine ⟨⟨m₁, hrun₁, hcopy⟩, ⟨m₂, hrun₂, hint.trans (by decide)⟩,
    ⟨m₃, hrun₃, hfp.trans (by decide)⟩, ?_⟩
  rw [hchecked]
  exact htrap

end Instruction

end AlphaMachine
