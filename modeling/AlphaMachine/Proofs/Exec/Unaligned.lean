import AlphaMachine.Proofs.Exec.Alignment
import AlphaMachine.Proofs.Exec.ByteFields
import AlphaMachine.Proofs.Exec.Reservation

/-!
# Unaligned data

Loads and stores need aligned addresses.  A datum at any address is reached through the one or two
quadwords that it lies in: `LDQ_U` and `STQ_U` ignore the low bits of an address, and the
byte-manipulation instructions pick the bytes of the datum from the quadwords or put them there
(`Instruction.unalignedLoad`, `Instruction.unalignedStore`).

Both sequences are followed byte by byte.  A datum of `n` bytes at byte `k` of a quadword either
ends in it, and then the two accesses are to the same quadword, or goes on at the beginning of the
next one (`Memory.toNat_lastQuad`).

* `Memory.byteAt_joinFields`, `Memory.byte?_writeFields` : what the byte-manipulation instructions
  make of the two quadwords, byte by byte;
* `Instruction.unaligned_load` : the sequence that loads gives the number at the address;
* `Instruction.unaligned_store` : the sequence that stores writes the bytes of the datum and no
  others.
-/

namespace AlphaMachine

open Integer

theorem AccessSize.bytes_pos (size : AccessSize) : 0 < size.bytes := by
  cases size <;> decide

theorem toNat_alignDown (a : UInt64) : (alignDown a).toNat + offset a = a.toNat := by
  have hmask : (~~~7 : UInt64).toBitVec = BitVec.allOnes 64 <<< 3 := by decide
  have hshift : (alignDown a).toBitVec = a.toBitVec >>> 3 <<< 3 := by
    rw [alignDown, UInt64.toBitVec_and, hmask, BitVec.shiftLeft_ushiftRight]
  have hlt := a.toNat_lt
  rw [← UInt64.toNat_toBitVec, hshift, BitVec.toNat_shiftLeft, BitVec.toNat_ushiftRight,
    UInt64.toNat_toBitVec, Nat.shiftRight_eq_div_pow, Nat.shiftLeft_eq, offset]
  omega

/-! ### Quadwords in memory -/

namespace Memory

variable {mem : Memory} {address : UInt64} {i n : Nat}

/-- The quadword at an address. -/
def quadAt (mem : Memory) (address : UInt64) : UInt64 :=
  UInt64.ofNat (Bytes.littleEndian (Bytes.slice mem.bytes (mem.index address) 8))

theorem maps_iff :
    mem.maps address n = true ↔
      mem.base.toNat ≤ address.toNat ∧ address.toNat - mem.base.toNat + n ≤ mem.size := by
  simp [maps, UInt64.le_iff_toNat_le]

theorem load_quad (ha : isAligned address .quad = true) (hm : mem.maps address 8 = true) :
    mem.load address .quad = .ok (mem.quadAt address) := by
  simp only [load, AccessSize.bytes, ha, hm, Bool.not_true, Bool.false_eq_true, if_false]
  rfl

theorem length_slice (bytes : Array UInt8) (j : Nat) : (Bytes.slice bytes j n).length = n := by
  induction n generalizing j with
  | zero => rfl
  | succ n ih => rw [Bytes.slice, List.length_cons, ih]

theorem getElem?_slice {bytes : Array UInt8} {j : Nat} (hi : i < n) (hj : j + n ≤ bytes.size) :
    (Bytes.slice bytes j n)[i]? = bytes[j + i]? := by
  induction n generalizing i j with
  | zero => omega
  | succ n ih =>
    rw [Bytes.slice]
    cases i with
    | zero =>
      have hlt : j < bytes.size := by omega
      rw [List.getElem?_cons_zero, Nat.add_zero, Array.getElem?_eq_getElem hlt,
        Array.getD_eq_getD_getElem?, Array.getElem?_eq_getElem hlt, Option.getD_some]
    | succ i =>
      rw [List.getElem?_cons_succ, ih (by omega) (by omega), Nat.add_right_comm, Nat.add_assoc]

theorem byte?_of_maps (hm : mem.maps address n = true) (hi : i < n) :
    mem.byte? (address.toNat + i) = (Bytes.slice mem.bytes (mem.index address) n)[i]? := by
  obtain ⟨hbase, hsize⟩ := maps_iff.1 hm
  have hinside : mem.index address + n ≤ mem.bytes.size := hsize
  have hindex : address.toNat + i - mem.base.toNat = mem.index address + i := by
    unfold index
    omega
  rw [getElem?_slice hi hinside, byte?, if_pos (by omega), hindex]

theorem byte?_quadAt (hm : mem.maps address 8 = true) (hi : i < 8) :
    mem.byte? (address.toNat + i) = some (byteAt (mem.quadAt address) i) := by
  have hlength := length_slice (n := 8) mem.bytes (mem.index address)
  have hlt : Bytes.littleEndian (Bytes.slice mem.bytes (mem.index address) 8) < 2 ^ 64 := by
    have hbound := Bytes.littleEndian_lt (Bytes.slice mem.bytes (mem.index address) 8)
    rwa [hlength] at hbound
  have hbyte : byteAt (mem.quadAt address) i =
      (Bytes.slice mem.bytes (mem.index address) 8).getD i 0 := by
    rw [← UInt8.toNat_inj, toNat_byteAt _ hi, quadAt, UInt64.toNat_ofNat', Nat.mod_eq_of_lt hlt,
      Bytes.littleEndian_div]
  have hinside : i < (Bytes.slice mem.bytes (mem.index address) 8).length := by omega
  rw [byte?_of_maps hm hi, hbyte, List.getD_eq_getElem?_getD, List.getElem?_eq_getElem hinside,
    Option.getD_some]

/-- What is read from memory. -/
theorem readBytes_eq_ok {l : List UInt8} (hm : mem.maps address n = true) (hl : l.length = n)
    (h : ∀ i < n, mem.byte? (address.toNat + i) = l[i]?) : mem.readBytes address n = .ok l := by
  have hslice : Bytes.slice mem.bytes (mem.index address) n = l := by
    refine List.ext_getElem? fun i => ?_
    by_cases hi : i < n
    · rw [← byte?_of_maps hm hi, h i hi]
    · rw [List.getElem?_eq_none (by rw [length_slice]; omega), List.getElem?_eq_none (by omega)]
  rw [readBytes, if_pos hm, hslice]

/-! ### Stored quadwords -/

theorem maps_write (size : AccessSize) (value : UInt64) (address' : UInt64) (n : Nat) :
    (mem.write address size value).maps address' n = mem.maps address' n := by
  have hsize : (mem.write address size value).size = mem.size := Bytes.size_put ..
  rw [maps, maps, hsize]
  rfl

/-- A store makes no difference to whether other stores fail. -/
theorem storeFault?_write (size : AccessSize) (value : UInt64) (address' : UInt64)
    (size' : AccessSize) :
    (mem.write address size value).storeFault? address' size' = mem.storeFault? address' size' := by
  rw [storeFault?, storeFault?, maps_write]
  rfl

/-- Stored bytes are in place. -/
theorem byte?_write_inside {size : AccessSize} (h : mem.storeFault? address size = none)
    (value : UInt64) (hi : i < size.bytes) :
    (mem.write address size value).byte? (address.toNat + i) = some (byteAt value i) := by
  have hm := maps_of_storeFault? h
  have hm' : (mem.write address size value).maps address size.bytes = true := by
    rw [maps_write, hm]
  have hinside : mem.index address + (Bytes.ofWord value size.bytes).length ≤ mem.bytes.size := by
    rw [Bytes.length_ofWord]
    exact (maps_iff.1 hm).2
  have hput := Bytes.slice_put hinside
  rw [Bytes.length_ofWord] at hput
  have hbytes : (mem.write address size value).bytes =
      Bytes.put mem.bytes (mem.index address) (Bytes.ofWord value size.bytes) := rfl
  have hindex : (mem.write address size value).index address = mem.index address := rfl
  rw [byte?_of_maps hm' hi, hbytes, hindex, hput, getElem?_ofWord value hi size.bytes_le]

/-- A stored quadword is in memory, and nothing else has changed. -/
theorem byte?_write_quad_eq (h : mem.storeFault? address .quad = none) (value : UInt64) (a : Nat) :
    (mem.write address .quad value).byte? a =
      if address.toNat ≤ a ∧ a < address.toNat + 8 then some (byteAt value (a - address.toNat))
      else mem.byte? a := by
  split
  · next hin =>
    obtain ⟨i, rfl⟩ := Nat.exists_eq_add_of_le hin.1
    have hi : i < AccessSize.quad.bytes := by simp only [AccessSize.bytes]; omega
    rw [byte?_write_inside h value hi, Nat.add_sub_cancel_left]
  · next hout => exact byte?_write h value (by simp only [AccessSize.bytes]; omega)

/-! ### The quadwords of a datum -/

/-- The quadword in which the datum of some size at an address ends. -/
def lastQuad (address : UInt64) (size : AccessSize) : UInt64 :=
  alignDown (address + UInt64.ofNat (size.bytes - 1))

variable {A : UInt64} {size : AccessSize}

/-- **A datum ends in the quadword in which it begins, or in the next one**, and if both are in
memory, then so is the datum. -/
theorem toNat_lastQuad (hfirst : mem.maps (alignDown A) 8 = true)
    (hlast : mem.maps (lastQuad A size) 8 = true) :
    (lastQuad A size).toNat =
        (if offset A + size.bytes ≤ 8 then (alignDown A).toNat else (alignDown A).toNat + 8) ∧
      mem.maps A size.bytes = true := by
  obtain ⟨hbase, hend⟩ := maps_iff.1 hfirst
  obtain ⟨hbase', hend'⟩ := maps_iff.1 hlast
  have hlow := toNat_alignDown A
  have hhigh := toNat_alignDown (A + UInt64.ofNat (size.bytes - 1))
  have hle := size.bytes_le
  have hpos := size.bytes_pos
  have hA := A.toNat_lt
  have hmem : mem.size < 2 ^ 64 := mem.size_lt
  simp only [offset, UInt64.toNat_add, UInt64.toNat_ofNat'] at hlow hhigh
  rw [maps_iff]
  unfold lastQuad offset at *
  -- No memory reaches around the end of the address space.
  refine ⟨?_, ?_, ?_⟩
  · split <;> omega
  · omega
  · omega

/-- The byte at an address, as a byte of a quadword. -/
theorem byteAt_quadAt (hm : mem.maps address 8 = true) (hi : i < 8) :
    byteAt (mem.quadAt address) i = (mem.byte? (address.toNat + i)).getD 0 := by
  rw [byte?_quadAt hm hi, Option.getD_some]

/-- A datum taken from its quadwords. -/
def joinFields (mem : Memory) (A : UInt64) (size : AccessSize) : UInt64 :=
  byteField .extract .low size (mem.quadAt (alignDown A)) A |||
    byteField .extract .high size (mem.quadAt (lastQuad A size)) A

/-- **The bytes of a datum, taken from its quadwords**: in front the bytes that are in the first,
behind them those that are in the last. -/
theorem byteAt_joinFields (hfirst : mem.maps (alignDown A) 8 = true)
    (hlast : mem.maps (lastQuad A size) 8 = true) (hi : i < 8) :
    byteAt (mem.joinFields A size) i =
      if i < size.bytes then (mem.byte? (A.toNat + i)).getD 0 else 0 := by
  have hlow := toNat_alignDown A
  have hk := offset_lt A
  have hle := size.bytes_le
  have hquad := (toNat_lastQuad hfirst hlast).1
  rw [joinFields, byteAt_or _ _ hi, byteAt_extractLow _ _ _ hi, byteAt_extractHigh _ _ _ hi]
  by_cases hin : i < size.bytes
  · by_cases hlt : i + offset A < 8
    · have haddress : (alignDown A).toNat + (i + offset A) = A.toNat + i := by omega
      rw [if_pos ⟨hin, hlt⟩, byteAt_quadAt hfirst hlt, haddress, if_pos hin]
      by_cases hzero : offset A = 0
      · -- The datum fills no more than the quadword, and is extracted from it twice.
        have hcount : (8 - offset A) % 8 = 0 := by omega
        have haddress' : (lastQuad A size).toNat + i = A.toNat + i := by
          rw [hquad, if_pos (by omega)]
          omega
        rw [hcount, if_pos ⟨hin, Nat.zero_le i⟩, Nat.sub_zero, byteAt_quadAt hlast hi, haddress',
          UInt8.or_self]
      · rw [if_neg (by omega), UInt8.or_zero]
    · have hcount : (8 - offset A) % 8 = 8 - offset A := by omega
      have haddress : (lastQuad A size).toNat + (i - (8 - offset A)) = A.toNat + i := by
        rw [hquad, if_neg (by omega)]
        omega
      rw [if_neg (by omega), hcount, if_pos ⟨hin, by omega⟩, byteAt_quadAt hlast (by omega),
        haddress, if_pos hin, UInt8.zero_or]
  · rw [if_neg (fun h => hin h.1), if_neg (fun h => hin h.1), if_neg hin, UInt8.or_zero]

/-- The datum as a number. -/
theorem toNat_joinFields (hfirst : mem.maps (alignDown A) 8 = true)
    (hlast : mem.maps (lastQuad A size) 8 = true) :
    ∃ bytes, mem.readBytes A size.bytes = .ok bytes ∧
      (mem.joinFields A size).toNat = Bytes.littleEndian bytes := by
  have hmaps := (toNat_lastQuad hfirst hlast).2
  have hlength := length_slice (n := size.bytes) mem.bytes (mem.index A)
  refine ⟨Bytes.slice mem.bytes (mem.index A) size.bytes, by rw [readBytes, if_pos hmaps], ?_⟩
  refine toNat_eq_littleEndian (Nat.le_trans (Nat.le_of_eq hlength) size.bytes_le) fun i hi => ?_
  rw [byteAt_joinFields hfirst hlast hi, List.getD_eq_getElem?_getD]
  split
  · next hin => rw [byte?_of_maps hmaps hin]
  · next hout => rw [List.getElem?_eq_none (by omega), Option.getD_none]

/-- The first quadword with the beginning of a datum put in. -/
def withLow (size : AccessSize) (quad value A : UInt64) : UInt64 :=
  byteField .mask .low size quad A ||| byteField .insert .low size value A

/-- The last quadword with the end of a datum put in. -/
def withHigh (size : AccessSize) (quad value A : UInt64) : UInt64 :=
  byteField .mask .high size quad A ||| byteField .insert .high size value A

theorem byteAt_withLow (size : AccessSize) (quad value A : UInt64) (hi : i < 8) :
    byteAt (withLow size quad value A) i =
      if offset A ≤ i ∧ i < offset A + size.bytes then byteAt value (i - offset A)
      else byteAt quad i := by
  rw [withLow, byteAt_or _ _ hi, byteAt_maskLow _ _ _ hi, byteAt_insertLow _ _ _ hi]
  split
  · exact UInt8.zero_or
  · exact UInt8.or_zero

theorem byteAt_withHigh (size : AccessSize) (quad value A : UInt64) (hi : i < 8) :
    byteAt (withHigh size quad value A) i =
      if i + 8 < offset A + size.bytes then byteAt value (i + 8 - offset A)
      else byteAt quad i := by
  rw [withHigh, byteAt_or _ _ hi, byteAt_maskHigh _ _ _ hi, byteAt_insertHigh _ _ _ hi]
  split
  · exact UInt8.zero_or
  · exact UInt8.or_zero

/-- Memory with a datum put into its quadwords, the last one first. -/
def writeFields (mem : Memory) (A : UInt64) (size : AccessSize) (value : UInt64) : Memory :=
  (mem.write (lastQuad A size) .quad (withHigh size (mem.quadAt (lastQuad A size)) value A)).write
    (alignDown A) .quad (withLow size (mem.quadAt (alignDown A)) value A)

/-- **A datum that is put into its quadwords is in memory, and nothing else has changed.**  If the
datum is within one quadword, the second of the two stores undoes what is wrong with the first. -/
theorem byte?_writeFields (hfirst : mem.storeFault? (alignDown A) .quad = none)
    (hlast : mem.storeFault? (lastQuad A size) .quad = none) (value : UInt64) (a : Nat) :
    (mem.writeFields A size value).byte? a =
      if A.toNat ≤ a ∧ a < A.toNat + size.bytes then some (byteAt value (a - A.toNat))
      else mem.byte? a := by
  have hfirst' := maps_of_storeFault? hfirst
  have hlast' := maps_of_storeFault? hlast
  have hlow := toNat_alignDown A
  have hk := offset_lt A
  have hle := size.bytes_le
  have hquad := (toNat_lastQuad hfirst' hlast').1
  have hsecond : (mem.write (lastQuad A size) .quad
      (withHigh size (mem.quadAt (lastQuad A size)) value A)).storeFault? (alignDown A) .quad =
        none := by
    rw [storeFault?_write, hfirst]
  rw [writeFields, byte?_write_quad_eq hsecond]
  by_cases hin : (alignDown A).toNat ≤ a ∧ a < (alignDown A).toNat + 8
  · obtain ⟨i, rfl⟩ := Nat.exists_eq_add_of_le hin.1
    have hi : i < 8 := by omega
    rw [if_pos hin, Nat.add_sub_cancel_left, byteAt_withLow _ _ _ _ hi]
    by_cases hdatum : offset A ≤ i ∧ i < offset A + size.bytes
    · have hindex : (alignDown A).toNat + i - A.toNat = i - offset A := by omega
      rw [if_pos hdatum, if_pos (by omega), hindex]
    · rw [if_neg hdatum, if_neg (by omega), byte?_quadAt hfirst' hi]
  · rw [if_neg hin, byte?_write_quad_eq hlast]
    by_cases hin' : (lastQuad A size).toNat ≤ a ∧ a < (lastQuad A size).toNat + 8
    · -- Only a datum that goes on in the next quadword can have bytes here.
      obtain ⟨i, rfl⟩ := Nat.exists_eq_add_of_le hin'.1
      have hi : i < 8 := by omega
      have hnext : (lastQuad A size).toNat = (alignDown A).toNat + 8 := by
        rw [hquad]
        refine if_neg fun hinside => ?_
        rw [if_pos hinside] at hquad
        omega
      rw [if_pos hin', Nat.add_sub_cancel_left, byteAt_withHigh _ _ _ _ hi]
      by_cases hdatum : i + 8 < offset A + size.bytes
      · have hindex : (lastQuad A size).toNat + i - A.toNat = i + 8 - offset A := by omega
        rw [if_pos hdatum, if_pos (by omega), hindex]
      · rw [if_neg hdatum, if_neg (by omega), byte?_quadAt hlast' hi]
    · have hout : ¬ (A.toNat ≤ a ∧ a < A.toNat + size.bytes) := by
        rw [hquad] at hin'
        split at hin' <;> omega
      rw [if_neg hin', if_neg hout]

end Memory

/-! ### Registers -/

namespace Machine

variable (m : Machine) {r s : Reg} (value : UInt64)

@[simp]
theorem readInt_writeInt_self (h : r ≠ Reg.zero) : (m.writeInt r value).cpu.readInt r = value :=
  m.cpu.readInt_writeInt h value

@[simp]
theorem readInt_writeInt_of_ne (h : s ≠ r) :
    (m.writeInt r value).cpu.readInt s = m.cpu.readInt s := by
  change (m.cpu.int.write r value).read s = m.cpu.int.read s
  rw [RegisterFile.read, RegisterFile.read, Processor.get_write_of_ne _ (.inl h)]

end Machine

@[simp]
theorem Processor.readInt_clearLockOnStore (cpu : Processor) (address : UInt64) (r : Reg) :
    (cpu.clearLockOnStore address).readInt r = cpu.readInt r := by
  unfold clearLockOnStore
  split <;> rfl

/-! ### Instructions -/

/-- The function code of a byte-manipulation instruction. -/
def ByteAction.function (action : ByteAction) (half : Half) (size : AccessSize) : Nat :=
  let first := match action, half with
    | .extract, .low => 0x06
    | .extract, .high => 0x4A
    | .insert, .low => 0x0B
    | .insert, .high => 0x47
    | .mask, .low => 0x02
    | .mask, .high => 0x42
  first + 0x10 * match size with
    | .byte => 0
    | .word => 1
    | .long => 2
    | .quad => 3

namespace Instruction

/-- Load into `r` the quadword around an address. -/
def loadQuad (r base : Reg) (displacement : Int16) : Instruction :=
  .memory .ldqU r base displacement

/-- Store `r` as the quadword around an address. -/
def storeQuad (r base : Reg) (displacement : Int16) : Instruction :=
  .memory .stqU r base displacement

/-- Set `t` to what becomes of `r` at the byte offset in `s`. -/
def field (action : ByteAction) (half : Half) (size : AccessSize) (r s t : Reg) : Instruction :=
  .operate .intS r (.register s) (action.function half size) t

/-- Set `t` to the disjunction of `r` and `s`. -/
def disjunction (r s t : Reg) : Instruction := .operate .intL r (.register s) 0x20 t

/-- Execute one instruction after the other as long as each completes and goes on with the
following one. -/
def executeAll : List Instruction → UInt64 → Machine → Outcome
  | [], _, m => .done m .next
  | i :: rest, pc, m =>
    match i.execute pc m with
    | .done m' .next => executeAll rest (pc + 4) m'
    | outcome => outcome

theorem executeAll_cons {i : Instruction} {rest : List Instruction} {pc : UInt64} {m m' : Machine}
    {o : Outcome} (h : i.execute pc m = .done m' .next)
    (hrest : executeAll rest (pc + 4) m' = o) : executeAll (i :: rest) pc m = o := by
  rw [executeAll, h]
  exact hrest

section Steps

variable {m : Machine} {r s t base : Reg} {displacement : Int16} {a b : UInt64}

theorem execute_loadQuad (hr : r ≠ Reg.zero) (hbase : m.cpu.readInt base = b)
    (hload : m.mem.load (alignDown (b + displacementWord displacement)) .quad = .ok a)
    (pc : UInt64) :
    (loadQuad r base displacement).execute pc m = .done (m.writeInt r a) .next := by
  subst hbase
  have hop : Operation.ofInstruction? (loadQuad r base displacement) =
      some (.memory .loadUnaligned) :=
    Operation.ofInstruction?_of_registered ⟨.ldqU, none⟩ rfl (by decide)
  rw [execute_of_some hop]
  change MemoryOp.runLoad .quad pc _ r m = _
  rw [MemoryOp.runLoad, if_neg hr, Machine.loadThen, hload]
  rfl

theorem execute_storeQuad (hr : m.cpu.readInt r = a) (hbase : m.cpu.readInt base = b)
    (hstore : m.mem.storeFault? (alignDown (b + displacementWord displacement)) .quad = none)
    (pc : UInt64) :
    (storeQuad r base displacement).execute pc m =
      .done ⟨m.cpu.clearLockOnStore (alignDown (b + displacementWord displacement)),
        m.mem.write (alignDown (b + displacementWord displacement)) .quad a⟩ .next := by
  subst hr hbase
  have hop : Operation.ofInstruction? (storeQuad r base displacement) =
      some (.memory .storeUnaligned) :=
    Operation.ofInstruction?_of_registered ⟨.stqU, none⟩ rfl (by decide)
  rw [execute_of_some hop]
  change m.storeInt pc _ .quad _ = _
  rw [Machine.storeInt, hstore]

theorem execute_field (action : ByteAction) (half : Half) {size : AccessSize} (hsize : size ≠ .byte)
    (hr : m.cpu.readInt r = a) (hs : m.cpu.readInt s = b) (pc : UInt64) :
    (field action half size r s t).execute pc m =
      .done (m.writeInt t (byteField action half size a b)) .next := by
  subst hr hs
  have hop : Operation.ofInstruction? (field action half size r s t) =
      some (.operate (.byteField action half size)) := by
    refine Operation.ofInstruction?_of_registered ⟨.intS, some (action.function half size)⟩ ?_ ?_
    · cases action <;> cases half <;> cases size <;> rfl
    · cases size with
      | byte => exact absurd rfl hsize
      | word | long | quad => cases action <;> cases half <;> decide
  rw [execute_of_some hop]
  rfl

theorem execute_disjunction (hr : m.cpu.readInt r = a) (hs : m.cpu.readInt s = b) (pc : UInt64) :
    (disjunction r s t).execute pc m = .done (m.writeInt t (a ||| b)) .next := by
  subst hr hs
  have hop : Operation.ofInstruction? (disjunction r s t) = some (.operate (.logic .or false)) :=
    Operation.ofInstruction?_of_registered ⟨.intL, some 0x20⟩ rfl (by decide)
  rw [execute_of_some hop]
  rfl

end Steps

/-! ### Addresses -/

/-- The displacement of the last byte of a datum. -/
def lastByte (size : AccessSize) : Int16 := Int16.ofNat (size.bytes - 1)

theorem address_first (A : UInt64) : alignDown (A + displacementWord 0) = alignDown A := by
  have hzero : displacementWord 0 = 0 := by decide
  rw [hzero, UInt64.add_zero]

theorem address_last (A : UInt64) (size : AccessSize) :
    alignDown (A + displacementWord (lastByte size)) = Memory.lastQuad A size := by
  have hword : displacementWord (lastByte size) = UInt64.ofNat (size.bytes - 1) := by
    cases size <;> decide
  rw [hword, Memory.lastQuad]

/-! ### Loading -/

/-- Load into `r₃` the datum at the address in `base`. -/
def unalignedLoad (size : AccessSize) (base r₁ r₂ r₃ : Reg) : List Instruction :=
  [loadQuad r₁ base 0, loadQuad r₂ base (lastByte size),
   field .extract .low size r₁ base r₁, field .extract .high size r₂ base r₂,
   disjunction r₁ r₂ r₃]

theorem executeAll_unalignedLoad {size : AccessSize} (hsize : size ≠ .byte) {base r₁ r₂ r₃ : Reg}
    (hregs : [base, r₁, r₂, r₃, Reg.zero].Nodup) {m : Machine} {A first last : UInt64}
    (hA : m.cpu.readInt base = A) (hfirst : m.mem.load (alignDown A) .quad = .ok first)
    (hlast : m.mem.load (Memory.lastQuad A size) .quad = .ok last) (pc : UInt64) :
    ∃ m', executeAll (unalignedLoad size base r₁ r₂ r₃) pc m = .done m' .next ∧
      m'.cpu.readInt r₃ =
        byteField .extract .low size first A ||| byteField .extract .high size last A := by
  obtain ⟨⟨hb₁, hb₂, -, -⟩, ⟨h₁₂, -, h₁⟩, ⟨-, h₂⟩, h₃⟩ :
      (base ≠ r₁ ∧ base ≠ r₂ ∧ base ≠ r₃ ∧ base ≠ Reg.zero) ∧
      (r₁ ≠ r₂ ∧ r₁ ≠ r₃ ∧ r₁ ≠ Reg.zero) ∧ (r₂ ≠ r₃ ∧ r₂ ≠ Reg.zero) ∧ r₃ ≠ Reg.zero := by
    simpa using hregs
  refine ⟨?_, ?run, ?result⟩
  -- The machine after the run is what comes out of the steps; each names the values it uses.
  case run =>
    refine executeAll_cons
      (execute_loadQuad h₁ hA (by rw [address_first]; exact hfirst) _) ?_
    refine executeAll_cons (execute_loadQuad (b := A) h₂ (by simp [hb₁, hA])
      (by rw [address_last]; exact hlast) _) ?_
    refine executeAll_cons (execute_field .extract .low (a := first) (b := A) hsize
      (by simp [h₁₂, h₁]) (by simp [hb₁, hb₂, hA]) _) ?_
    refine executeAll_cons (execute_field .extract .high (a := last) (b := A) hsize
      (by simp [h₁₂.symm, h₂]) (by simp [hb₁, hb₂, hA]) _) ?_
    exact executeAll_cons (execute_disjunction (a := byteField .extract .low size first A)
      (b := byteField .extract .high size last A) (by simp [h₁₂, h₁]) (by simp [h₂]) _) (by rfl)
  case result => exact Machine.readInt_writeInt_self _ _ h₃

/-- **The sequence that loads a datum loads the number at its address**, whatever the address, and
none of its instructions traps. -/
theorem unaligned_load {size : AccessSize} (hsize : size ≠ .byte) {base r₁ r₂ r₃ : Reg}
    (hregs : [base, r₁, r₂, r₃, Reg.zero].Nodup) (m : Machine)
    (hfirst : m.mem.maps (alignDown (m.cpu.readInt base)) 8 = true)
    (hlast : m.mem.maps (alignDown (m.cpu.readInt base + UInt64.ofNat (size.bytes - 1))) 8 = true)
    (pc : UInt64) :
    ∃ m' bytes, executeAll (unalignedLoad size base r₁ r₂ r₃) pc m = .done m' .next ∧
      m.mem.readBytes (m.cpu.readInt base) size.bytes = .ok bytes ∧
      (m'.cpu.readInt r₃).toNat = Bytes.littleEndian bytes := by
  obtain ⟨m', hrun, hresult⟩ := executeAll_unalignedLoad hsize hregs rfl
    (Memory.load_quad (isAligned_alignDown _) hfirst)
    (Memory.load_quad (isAligned_alignDown _) hlast) pc
  obtain ⟨bytes, hread, hvalue⟩ := Memory.toNat_joinFields hfirst hlast
  exact ⟨m', bytes, hrun, hread, (congrArg UInt64.toNat hresult).trans hvalue⟩

/-- A machine with 16 bytes of memory, whose register 16 points into the middle and whose register
17 holds a value. -/
def pointing : Machine where
  cpu := (({} : Processor).writeInt 16 0x1006).writeInt 17 0xA1B2C3D4E5F60718
  mem :=
    { base := 0x1000
      bytes := #[0x10, 0x11, 0x12, 0x13, 0x14, 0x15, 0x16, 0x17, 0x18, 0x19, 0x1A, 0x1B, 0x1C, 0x1D,
        0x1E, 0x1F]
      readOnly := none
      size_lt := by decide }

/-- The words that load a longword, of which two bytes are in either quadword. -/
theorem unaligned_load_pointing :
    ∃ m', executeAll ([0x2C300000, 0x2C500003, 0x483004C1, 0x48500D42, 0x44220403].map decode)
        0x2000 pointing = .done m' .next ∧
      m'.cpu.readInt 3 = 0x19181716 := by
  have hwords : [0x2C300000, 0x2C500003, 0x483004C1, 0x48500D42, 0x44220403].map decode =
      unalignedLoad .long 16 1 2 3 := by decide
  obtain ⟨m', bytes, hrun, hread, hvalue⟩ := @unaligned_load .long (by decide) 16 1 2 3 (by decide)
    pointing (by decide) (by decide) 0x2000
  have hbytes : pointing.mem.readBytes (pointing.cpu.readInt 16) AccessSize.long.bytes =
      .ok [0x16, 0x17, 0x18, 0x19] := by rfl
  cases hbytes.symm.trans hread
  rw [hwords]
  exact ⟨m', hrun, UInt64.toNat_inj.1 hvalue⟩

/-! ### Storing -/

/-- Store the datum in `source` at the address in `base`. -/
def unalignedStore (size : AccessSize) (base source r₁ r₂ r₃ r₄ : Reg) : List Instruction :=
  [loadQuad r₂ base (lastByte size), loadQuad r₁ base 0,
   field .insert .high size source base r₄, field .insert .low size source base r₃,
   field .mask .high size r₂ base r₂, field .mask .low size r₁ base r₁,
   disjunction r₂ r₄ r₂, disjunction r₁ r₃ r₁,
   storeQuad r₂ base (lastByte size), storeQuad r₁ base 0]

theorem executeAll_unalignedStore {size : AccessSize} (hsize : size ≠ .byte)
    {base source r₁ r₂ r₃ r₄ : Reg} (hregs : [r₁, r₂, r₃, r₄, Reg.zero].Nodup)
    (hbase : base ∉ [r₁, r₂, r₃, r₄]) (hsource : source ∉ [r₁, r₂, r₃, r₄]) {m : Machine}
    {A value first last : UInt64} (hA : m.cpu.readInt base = A)
    (hvalue : m.cpu.readInt source = value)
    (hfirst : m.mem.load (alignDown A) .quad = .ok first)
    (hlast : m.mem.load (Memory.lastQuad A size) .quad = .ok last)
    (hfirst' : m.mem.storeFault? (alignDown A) .quad = none)
    (hlast' : m.mem.storeFault? (Memory.lastQuad A size) .quad = none) (pc : UInt64) :
    ∃ m', executeAll (unalignedStore size base source r₁ r₂ r₃ r₄) pc m = .done m' .next ∧
      m'.mem =
        (m.mem.write (Memory.lastQuad A size) .quad (Memory.withHigh size last value A)).write
          (alignDown A) .quad (Memory.withLow size first value A) := by
  obtain ⟨⟨h₁₂, h₁₃, h₁₄, h₁⟩, ⟨h₂₃, h₂₄, h₂⟩, ⟨h₃₄, h₃⟩, h₄⟩ :
      (r₁ ≠ r₂ ∧ r₁ ≠ r₃ ∧ r₁ ≠ r₄ ∧ r₁ ≠ Reg.zero) ∧
      (r₂ ≠ r₃ ∧ r₂ ≠ r₄ ∧ r₂ ≠ Reg.zero) ∧ (r₃ ≠ r₄ ∧ r₃ ≠ Reg.zero) ∧ r₄ ≠ Reg.zero := by
    simpa using hregs
  obtain ⟨hb₁, hb₂, hb₃, hb₄⟩ : base ≠ r₁ ∧ base ≠ r₂ ∧ base ≠ r₃ ∧ base ≠ r₄ := by
    simpa using hbase
  obtain ⟨hs₁, hs₂, hs₃, hs₄⟩ : source ≠ r₁ ∧ source ≠ r₂ ∧ source ≠ r₃ ∧ source ≠ r₄ := by
    simpa using hsource
  refine ⟨?_, ?run, ?mem⟩
  case run =>
    refine executeAll_cons (execute_loadQuad h₂ hA (by rw [address_last]; exact hlast) _) ?_
    refine executeAll_cons (execute_loadQuad (b := A) h₁ (by simp [hb₂, hA])
      (by rw [address_first]; exact hfirst) _) ?_
    refine executeAll_cons (execute_field .insert .high (a := value) (b := A) hsize
      (by simp [hs₁, hs₂, hvalue]) (by simp [hb₁, hb₂, hA]) _) ?_
    refine executeAll_cons (execute_field .insert .low (a := value) (b := A) hsize
      (by simp [hs₁, hs₂, hs₄, hvalue]) (by simp [hb₁, hb₂, hb₄, hA]) _) ?_
    refine executeAll_cons (execute_field .mask .high (a := last) (b := A) hsize
      (by simp [h₁₂.symm, h₂₃, h₂₄, h₂]) (by simp [hb₁, hb₂, hb₃, hb₄, hA]) _) ?_
    refine executeAll_cons (execute_field .mask .low (a := first) (b := A) hsize
      (by simp [h₁₂, h₁₃, h₁₄, h₁]) (by simp [hb₁, hb₂, hb₃, hb₄, hA]) _) ?_
    refine executeAll_cons (execute_disjunction (a := byteField .mask .high size last A)
      (b := byteField .insert .high size value A) (by simp [h₁₂.symm, h₂])
      (by simp [h₁₄.symm, h₂₄.symm, h₃₄.symm, h₄]) _) ?_
    refine executeAll_cons (execute_disjunction (a := byteField .mask .low size first A)
      (b := byteField .insert .low size value A) (by simp [h₁₂, h₁])
      (by simp [h₁₃.symm, h₂₃.symm, h₃]) _) ?_
    refine executeAll_cons (execute_storeQuad (a := Memory.withHigh size last value A) (b := A)
      (by simp [h₁₂.symm, h₂, Memory.withHigh]) (by simp [hb₁, hb₂, hb₃, hb₄, hA])
      (by rw [address_last]; exact hlast') _) ?_
    exact executeAll_cons (execute_storeQuad (a := Memory.withLow size first value A) (b := A)
      (by simp [h₁, Memory.withLow]) (by simp [hb₁, hb₂, hb₃, hb₄, hA])
      (by rw [address_first, Memory.storeFault?_write]; exact hfirst') _) (by rfl)
  case mem =>
    rw [address_first, address_last]
    rfl

/-- **The sequence that stores a datum stores it at its address and changes nothing else**, whatever
the address, and none of its instructions traps. -/
theorem unaligned_store {size : AccessSize} (hsize : size ≠ .byte)
    {base source r₁ r₂ r₃ r₄ : Reg} (hregs : [r₁, r₂, r₃, r₄, Reg.zero].Nodup)
    (hbase : base ∉ [r₁, r₂, r₃, r₄]) (hsource : source ∉ [r₁, r₂, r₃, r₄]) (m : Machine)
    (hfirst : m.mem.storeFault? (alignDown (m.cpu.readInt base)) .quad = none)
    (hlast : m.mem.storeFault?
      (alignDown (m.cpu.readInt base + UInt64.ofNat (size.bytes - 1))) .quad = none)
    (pc : UInt64) :
    ∃ m', executeAll (unalignedStore size base source r₁ r₂ r₃ r₄) pc m = .done m' .next ∧
      m'.mem.readBytes (m.cpu.readInt base) size.bytes =
        .ok (Bytes.ofWord (m.cpu.readInt source) size.bytes) ∧
      ∀ a, a < (m.cpu.readInt base).toNat ∨ (m.cpu.readInt base).toNat + size.bytes ≤ a →
        m'.mem.byte? a = m.mem.byte? a := by
  have hmaps := Memory.maps_of_storeFault? hfirst
  have hmaps' := Memory.maps_of_storeFault? hlast
  obtain ⟨m', hrun, hfields⟩ := executeAll_unalignedStore hsize hregs hbase hsource rfl rfl
    (Memory.load_quad (isAligned_alignDown _) hmaps)
    (Memory.load_quad (isAligned_alignDown _) hmaps') hfirst hlast pc
  have hmem : m'.mem = m.mem.writeFields (m.cpu.readInt base) size (m.cpu.readInt source) := hfields
  have hbyte := Memory.byte?_writeFields hfirst hlast (m.cpu.readInt source)
  refine ⟨m', hrun, ?_, fun a ha => ?_⟩
  · rw [hmem]
    refine Memory.readBytes_eq_ok ?_ (Bytes.length_ofWord ..) fun i hi => ?_
    · rw [Memory.writeFields, Memory.maps_write, Memory.maps_write]
      exact (Memory.toNat_lastQuad hmaps hmaps').2
    · rw [hbyte, if_pos ⟨Nat.le_add_right .., Nat.add_lt_add_left hi _⟩, Nat.add_sub_cancel_left,
        getElem?_ofWord _ hi size.bytes_le]
  · rw [hmem, hbyte, if_neg (by omega)]

/-- The words that store a longword: its bytes are stored, and those on either side of it are as
before. -/
theorem unaligned_store_pointing :
    ∃ m', executeAll ([0x2C500003, 0x2C300000, 0x4A300CE4, 0x4A300563, 0x48500C42, 0x48300441,
        0x44440402, 0x44230401, 0x3C500003, 0x3C300000].map decode) 0x2000 pointing =
          .done m' .next ∧
      m'.mem.readBytes 0x1006 4 = .ok [0x18, 0x07, 0xF6, 0xE5] ∧
      m'.mem.byte? 0x1005 = some 0x15 ∧ m'.mem.byte? 0x100A = some 0x1A := by
  have hwords : [0x2C500003, 0x2C300000, 0x4A300CE4, 0x4A300563, 0x48500C42, 0x48300441,
      0x44440402, 0x44230401, 0x3C500003, 0x3C300000].map decode =
        unalignedStore .long 16 17 1 2 3 4 := by decide
  rw [hwords]
  obtain ⟨m', hrun, hread, hother⟩ := @unaligned_store .long (by decide) 16 17 1 2 3 4 (by decide)
    (by decide) (by decide) pointing (by decide) (by decide) 0x2000
  exact ⟨m', hrun, hread, hother 0x1005 (.inl (by decide)), hother 0x100A (.inr (by decide))⟩

end Instruction

end AlphaMachine
