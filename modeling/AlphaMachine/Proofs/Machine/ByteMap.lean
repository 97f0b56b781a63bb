import AlphaMachine.Proofs.Exec.Unaligned
import AlphaMachine.Proofs.Host.Buffer
import Mathlib.Algebra.BigOperators.Ring.Finset
import Mathlib.Data.List.GetD

/-!
# Flat memory as a map of bytes

A memory is read as a map from addresses to bytes (`ByteMap`).  The addresses of the map are
natural numbers, so that the end of a stretch of bytes never wraps around.  What the accesses do is
said once more in terms of the map alone: which bytes are mapped, which bytes a store touches,
which number some bytes spell.

The memory answers every sequence of calls as the map does, and the map of the memory afterwards is
the map afterwards (`Memory.refines_byteMap`, by `Memory.map_answer` for one call), provided that
the end of no store wraps around while a range is protected (`StoresEnd`).  In particular

* a load or a store succeeds if and only if its address is a multiple of its size, all its bytes
  are mapped and, for a store, it touches no protected byte; the first of these rules that is
  broken gives the fault (`ByteMap.fault?`);
* a store changes the bytes that it covers and no others, and so do images and words, which ignore
  protection (`ByteMap.overwrite`).
-/

namespace AlphaMachine

/-! ### Calls -/

/-- A use of a memory. -/
inductive MemoryCall where
  /-- Load a number. -/
  | load (address : UInt64) (size : AccessSize)
  /-- Store the low bytes of a number. -/
  | store (address : UInt64) (size : AccessSize) (value : UInt64)
  /-- Copy bytes to an address. -/
  | loadImage (address : UInt64) (data : List UInt8)
  /-- Write instruction words from an address on. -/
  | writeWords (address : UInt64) (words : List UInt32)
  /-- Read the bytes from an address on. -/
  | readBytes (address : UInt64) (length : Nat)
  /-- Reject stores into the addresses from `start` up to `stop`. -/
  | protect (start stop : UInt64)

namespace MemoryCall

/-- Whether the call sets the read-only range. -/
def protects : MemoryCall → Bool
  | .protect .. => true
  | _ => false

/-- Whether the call is no store, or the end of the store is an address. -/
def endsInside : MemoryCall → Bool
  | .store address size _ => address.toNat + size.bytes < UInt64.size
  | _ => true

end MemoryCall

/-- The end of every store into a memory with a protected range is an address. -/
def StoresEnd (calls : List MemoryCall) : Prop :=
  calls.Pairwise fun earlier later => earlier.protects → later.endsInside

instance (calls : List MemoryCall) : Decidable (StoresEnd calls) :=
  inferInstanceAs (Decidable (calls.Pairwise _))

/-- What comes back from a call. -/
inductive MemoryAnswer where
  /-- The call is done. -/
  | done
  /-- The loaded number. -/
  | number (value : Nat)
  /-- The bytes that were read. -/
  | bytes (data : List UInt8)
  /-- The call failed. -/
  | fault (fault : MemoryFault)
  deriving DecidableEq

/-- Answer calls one after the other. -/
def answerAll {σ : Type} (answer : σ → MemoryCall → σ × MemoryAnswer) :
    σ → List MemoryCall → σ × List MemoryAnswer
  | s, [] => (s, [])
  | s, call :: calls =>
    let (s, first) := answer s call
    let (s, rest) := answerAll answer s calls
    (s, first :: rest)

namespace Memory

/-- The memory after a change that may fail, and whether it did. -/
def settle (mem : Memory) : Except MemoryFault Memory → Memory × MemoryAnswer
  | .ok mem => (mem, .done)
  | .error fault => (mem, .fault fault)

/-- Answer a call. -/
def answer (mem : Memory) : MemoryCall → Memory × MemoryAnswer
  | .load address size =>
    match mem.load address size with
    | .ok value => (mem, .number value.toNat)
    | .error fault => (mem, .fault fault)
  | .store address size value => mem.settle (mem.store address size value)
  | .loadImage address data => mem.settle (mem.loadImage address data)
  | .writeWords address words => mem.settle (mem.writeWords address words)
  | .readBytes address length =>
    match mem.readBytes address length with
    | .ok data => (mem, .bytes data)
    | .error fault => (mem, .fault fault)
  | .protect start stop => (mem.protect start stop, .done)

end Memory

/-! ### Maps of bytes -/

/-- The bytes from an address upwards. -/
structure ByteMap where
  /-- The first mapped address. -/
  first : Nat
  /-- The number of mapped addresses. -/
  size : Nat
  /-- The byte at a mapped address. -/
  byte : Nat → UInt8
  /-- Stores must not touch the addresses from the first up to the second. -/
  readOnly : Option (Nat × Nat)

namespace ByteMap

/-- `size` zero bytes from an address upwards. -/
def zeroed (first size : Nat) : ByteMap := ⟨first, size, fun _ => 0, none⟩

/-- Whether there is a byte at an address. -/
def Mapped (map : ByteMap) (a : Nat) : Prop := map.first ≤ a ∧ a < map.first + map.size

/-- Whether the `n` bytes from `a` on lie within the mapped addresses; no bytes lie within them if
they lie at one of their ends. -/
def Spans (map : ByteMap) (a n : Nat) : Prop :=
  map.first ≤ a ∧ a + n ≤ map.first + map.size

/-- Whether a store of `n` bytes at `a` touches the protected range. -/
def Touches (map : ByteMap) (a n : Nat) : Prop :=
  ∃ start stop, map.readOnly = some (start, stop) ∧ a < stop ∧ start < a + n

instance (map : ByteMap) (a : Nat) : Decidable (map.Mapped a) := inferInstanceAs (Decidable (_ ∧ _))

instance (map : ByteMap) (a n : Nat) : Decidable (map.Spans a n) :=
  inferInstanceAs (Decidable (_ ∧ _))

instance (map : ByteMap) (a n : Nat) : Decidable (map.Touches a n) :=
  match h : map.readOnly with
  | none => .isFalse fun ⟨_, _, hsome, _⟩ => nomatch h.symm.trans hsome
  | some (start, stop) =>
    decidable_of_iff (a < stop ∧ start < a + n)
      ⟨fun hin => ⟨start, stop, h, hin⟩, fun ⟨_, _, hsome, hin⟩ => by
        cases h.symm.trans hsome
        exact hin⟩

/-- The map with `n` bytes from `a` on replaced. -/
def overwrite (map : ByteMap) (a n : Nat) (byte : Nat → UInt8) : ByteMap :=
  { map with byte := fun x => if a ≤ x ∧ x < a + n then byte (x - a) else map.byte x }

/-- Why an access of `n` bytes fails, if it does. -/
def fault? (map : ByteMap) (address : UInt64) (n : Nat) (isStore : Bool) : Option MemoryFault :=
  if ¬ n ∣ address.toNat then some (.unaligned address)
  else if isStore ∧ map.Touches address.toNat n then some (.protection address)
  else if ∀ i < n, map.Mapped (address.toNat + i) then none
  else some (.unmapped address)

/-- Answer a call, in terms of the map alone. -/
def answer (map : ByteMap) : MemoryCall → ByteMap × MemoryAnswer
  | .load address size =>
    match map.fault? address size.bytes false with
    | some fault => (map, .fault fault)
    | none =>
      (map, .number (∑ i ∈ Finset.range size.bytes, (map.byte (address.toNat + i)).toNat * 256 ^ i))
  | .store address size value =>
    match map.fault? address size.bytes true with
    | some fault => (map, .fault fault)
    | none =>
      (map.overwrite address.toNat size.bytes fun i => .ofNat (value.toNat / 256 ^ i), .done)
  | .loadImage address data =>
    if map.Spans address.toNat data.length then
      (map.overwrite address.toNat data.length fun i => data.getD i 0, .done)
    else (map, .fault (.unmapped address))
  | .writeWords address words =>
    if map.Spans address.toNat (4 * words.length) then
      (map.overwrite address.toNat (4 * words.length) fun i =>
        .ofNat ((words.getD (i / 4) 0).toNat / 256 ^ (i % 4)), .done)
    else (map, .fault (.unmapped address))
  | .readBytes address length =>
    if map.Spans address.toNat length then
      (map, .bytes ((List.range length).map fun i => map.byte (address.toNat + i)))
    else (map, .fault (.unmapped address))
  | .protect start stop => ({ map with readOnly := some (start.toNat, stop.toNat) }, .done)

end ByteMap

namespace ByteMap

variable {map : ByteMap} {a n : Nat}

theorem forall_mapped_iff (hn : 0 < n) : (∀ i < n, map.Mapped (a + i)) ↔ map.Spans a n := by
  constructor
  · intro h
    obtain ⟨hfirst, -⟩ := h 0 hn
    obtain ⟨-, hlast⟩ := h (n - 1) (by omega)
    exact ⟨hfirst, by omega⟩
  · rintro ⟨hfirst, hlast⟩ i hi
    exact ⟨by omega, by omega⟩

theorem spans_of_fault? {address : UInt64} {isStore : Bool} (hn : 0 < n)
    (h : map.fault? address n isStore = none) : map.Spans address.toNat n := by
  unfold fault? at h
  split at h
  · cases h
  · split at h
    · cases h
    · split at h
      · next hmapped => exact (forall_mapped_iff hn).1 hmapped
      · cases h

theorem overwrite_congr {byte byte' : Nat → UInt8} (h : ∀ i < n, byte i = byte' i) :
    map.overwrite a n byte = map.overwrite a n byte' := by
  unfold overwrite
  congr 1
  funext x
  split
  · exact h _ (by omega)
  · rfl

end ByteMap

/-! ### Byte strings -/

namespace Bytes

theorem littleEndian_eq_sum (l : List UInt8) :
    littleEndian l = ∑ i ∈ Finset.range l.length, (l.getD i 0).toNat * 256 ^ i := by
  induction l with
  | nil => rfl
  | cons b rest ih =>
    rw [littleEndian, ih, List.length_cons, Finset.sum_range_succ', Finset.mul_sum, Nat.add_comm]
    simp only [List.getD_cons_succ, List.getD_cons_zero, Nat.pow_zero, Nat.mul_one, Nat.pow_succ']
    congr 1
    exact Finset.sum_congr rfl fun i _ => Nat.mul_left_comm ..

theorem getElem?_put_eq {bytes : Array UInt8} {i : Nat} {data : List UInt8}
    (h : i + data.length ≤ bytes.size) (j : Nat) :
    (put bytes i data)[j]? = if i ≤ j ∧ j < i + data.length then data[j - i]? else bytes[j]? := by
  split
  · next hin =>
    obtain ⟨k, rfl⟩ := Nat.exists_eq_add_of_le hin.1
    have hslice : (slice (put bytes i data) i data.length)[k]? = (put bytes i data)[i + k]? :=
      Memory.getElem?_slice (by omega) (by rwa [size_put])
    rw [← hslice, slice_put h, Nat.add_sub_cancel_left]
  · next hout => exact getElem?_put (by omega)

theorem getD_ofWord (value : UInt64) {count i : Nat} (hi : i < count) (hcount : count ≤ 8) :
    (ofWord value count).getD i 0 = .ofNat (value.toNat / 256 ^ i) := by
  rw [List.getD_eq_getElem?_getD, Integer.getElem?_ofWord value hi hcount, Option.getD_some,
    ← UInt8.toNat_inj, Integer.toNat_byteAt value (by omega), UInt8.toNat_ofNat']

theorem getD_flatMap_ofWord (words : List UInt32) {i : Nat} (hi : i < 4 * words.length) :
    (words.flatMap fun word => ofWord word.toUInt64 4).getD i 0 =
      .ofNat ((words.getD (i / 4) 0).toNat / 256 ^ (i % 4)) := by
  induction words generalizing i with
  | nil => cases hi
  | cons word words ih =>
    rw [List.flatMap_cons]
    by_cases hlt : i < 4
    · have hquot : i / 4 = 0 := by omega
      have hrem : i % 4 = i := by omega
      rw [List.getD_append _ _ _ _ (by simpa using hlt), getD_ofWord _ hlt (by decide), hquot, hrem,
        List.getD_cons_zero, UInt32.toNat_toUInt64]
    · obtain ⟨j, rfl⟩ := Nat.exists_eq_add_of_le (Nat.not_lt.1 hlt)
      have hquot : (4 + j) / 4 = j / 4 + 1 := by omega
      have hrem : (4 + j) % 4 = j % 4 := by omega
      rw [List.length_cons] at hi
      rw [List.getD_append_right _ _ _ _ (by simp), length_ofWord, Nat.add_sub_cancel_left,
        ih (by omega), hquot, hrem, List.getD_cons_succ]

theorem length_flatMap_ofWord (words : List UInt32) :
    (words.flatMap fun word => ofWord word.toUInt64 4).length = 4 * words.length := by
  induction words with
  | nil => rfl
  | cons word words ih =>
    rw [List.flatMap_cons, List.length_append, ih, length_ofWord, List.length_cons]
    omega

end Bytes

/-! ### A memory as a map -/

namespace Memory

/-- The map that a memory stands for. -/
def map (mem : Memory) : ByteMap where
  first := mem.base.toNat
  size := mem.size
  byte a := (mem.byte? a).getD 0
  readOnly := mem.readOnly.map fun (start, stop) => (start.toNat, stop.toNat)

variable {mem : Memory} {address : UInt64} {n : Nat}

theorem maps_iff_spans : mem.maps address n = true ↔ mem.map.Spans address.toNat n := by
  rw [maps_iff, ByteMap.Spans]
  change _ ↔ mem.base.toNat ≤ address.toNat ∧ address.toNat + n ≤ mem.base.toNat + mem.size
  omega

theorem isProtected_iff (h : mem.readOnly ≠ none → address.toNat + n < UInt64.size) :
    mem.isProtected address n = true ↔ mem.map.Touches address.toNat n := by
  unfold isProtected ByteMap.Touches map
  cases hrange : mem.readOnly with
  | none => simp
  | some range =>
    obtain ⟨start, stop⟩ := range
    have hend : address.toNat + n < 2 ^ 64 := h (by simp [hrange])
    have hsum : (address + n.toUInt64).toNat = address.toNat + n := by
      rw [UInt64.toNat_add, Nat.toUInt64_eq, UInt64.toNat_ofNat', Nat.add_mod_mod,
        Nat.mod_eq_of_lt hend]
    simp [UInt64.lt_iff_toNat_lt, hsum]

theorem isAligned_iff {size : AccessSize} :
    isAligned address size = true ↔ size.bytes ∣ address.toNat := by
  rw [isAligned, decide_eq_true_iff, Nat.dvd_iff_mod_eq_zero]

/-- A store whose end is an address fails as it does on the map. -/
theorem storeFault?_eq {size : AccessSize}
    (h : mem.readOnly ≠ none → address.toNat + size.bytes < UInt64.size) :
    mem.storeFault? address size = mem.map.fault? address size.bytes true := by
  unfold storeFault? ByteMap.fault?
  simp only [Bool.not_eq_true', ← Bool.not_eq_true, isAligned_iff, isProtected_iff h,
    maps_iff_spans, ByteMap.forall_mapped_iff size.bytes_pos, true_and, ite_not]

/-- A load fails as it does on the map. -/
theorem load_eq (mem : Memory) (address : UInt64) (size : AccessSize) :
    mem.load address size = match mem.map.fault? address size.bytes false with
      | some fault => .error fault
      | none =>
        .ok (.ofNat (Bytes.littleEndian
          (Bytes.slice mem.bytes (mem.index address) size.bytes))) := by
  have hmaps : mem.maps address size.bytes = true ↔ mem.map.Spans address.toNat size.bytes :=
    maps_iff_spans
  have haligned : isAligned address size = true ↔ size.bytes ∣ address.toNat := isAligned_iff
  unfold load ByteMap.fault?
  simp only [Bool.not_eq_true', ← Bool.not_eq_true, haligned, hmaps,
    ByteMap.forall_mapped_iff size.bytes_pos, ite_not, Bool.false_eq_true, false_and, if_false]
  split
  · split <;> rfl
  · rfl

/-- Reading a stretch of memory reads the map. -/
theorem slice_eq_map (h : mem.map.Spans address.toNat n) :
    Bytes.slice mem.bytes (mem.index address) n =
      (List.range n).map fun i => mem.map.byte (address.toNat + i) := by
  refine List.ext_getElem (by rw [length_slice, List.length_map, List.length_range])
    fun i hi _ => ?_
  rw [length_slice] at hi
  rw [List.getElem_map, List.getElem_range]
  change _ = (mem.byte? (address.toNat + i)).getD 0
  rw [byte?_of_maps (maps_iff_spans.2 h) hi, List.getElem?_eq_getElem, Option.getD_some]

theorem littleEndian_slice (h : mem.map.Spans address.toNat n) :
    Bytes.littleEndian (Bytes.slice mem.bytes (mem.index address) n) =
      ∑ i ∈ Finset.range n, (mem.map.byte (address.toNat + i)).toNat * 256 ^ i := by
  rw [Bytes.littleEndian_eq_sum, length_slice, slice_eq_map h]
  refine Finset.sum_congr rfl fun i hi => ?_
  rw [List.getD_eq_getElem?_getD, List.getElem?_map, List.getElem?_range (Finset.mem_range.1 hi)]
  rfl

/-- Written bytes are in place, and nothing else has changed. -/
theorem byte?_put {mem' : Memory} {data : List UInt8}
    (h : mem.map.Spans address.toNat data.length) (hbase : mem'.base = mem.base)
    (hbytes : mem'.bytes = Bytes.put mem.bytes (mem.index address) data) (a : Nat) :
    mem'.byte? a =
      if address.toNat ≤ a ∧ a < address.toNat + data.length then data[a - address.toNat]?
      else mem.byte? a := by
  have hindex : mem.index address = address.toNat - mem.base.toNat := rfl
  obtain ⟨hfirst, hlast⟩ : mem.base.toNat ≤ address.toNat ∧
    address.toNat + data.length ≤ mem.base.toNat + mem.bytes.size := h
  rw [byte?, byte?, hbase, hbytes]
  by_cases hle : mem.base.toNat ≤ a
  · have hposition : a - mem.base.toNat - mem.index address = a - address.toNat := by omega
    have hin : (mem.index address ≤ a - mem.base.toNat ∧
        a - mem.base.toNat < mem.index address + data.length) ↔
          (address.toNat ≤ a ∧ a < address.toNat + data.length) := by omega
    rw [if_pos hle, if_pos hle, Bytes.getElem?_put_eq (by omega), if_congr hin rfl rfl, hposition]
  · rw [if_neg hle, if_neg hle, if_neg (by omega)]

/-- Writing a stretch of memory overwrites the map. -/
theorem map_put {mem' : Memory} {data : List UInt8}
    (h : mem.map.Spans address.toNat data.length) (hbase : mem'.base = mem.base)
    (hreadOnly : mem'.readOnly = mem.readOnly)
    (hbytes : mem'.bytes = Bytes.put mem.bytes (mem.index address) data) :
    mem'.map = mem.map.overwrite address.toNat data.length fun i => data.getD i 0 := by
  have hsize : mem'.size = mem.size := by
    rw [size, hbytes, Bytes.size_put]
    rfl
  have hbyte : (fun a => (mem'.byte? a).getD 0) = fun a =>
      if address.toNat ≤ a ∧ a < address.toNat + data.length then data.getD (a - address.toNat) 0
      else (mem.byte? a).getD 0 := by
    funext a
    rw [byte?_put h hbase hbytes, apply_ite (Option.getD · 0), List.getD_eq_getElem?_getD]
  rw [map, hbase, hsize, hbyte, hreadOnly]
  rfl

/-- Images and words are written whatever is protected. -/
theorem map_settle_loadImage (mem : Memory) (address : UInt64) (data : List UInt8) :
    (mem.settle (mem.loadImage address data)).map map id =
      if mem.map.Spans address.toNat data.length then
        (mem.map.overwrite address.toNat data.length fun i => data.getD i 0, .done)
      else (mem.map, .fault (.unmapped address)) := by
  unfold loadImage
  by_cases h : mem.map.Spans address.toNat data.length
  · rw [if_pos (maps_iff_spans.2 h), if_pos h]
    exact congrArg (·, MemoryAnswer.done) (map_put h rfl rfl rfl)
  · rw [if_neg (mt maps_iff_spans.1 h), if_neg h]
    rfl

/-- **The memory answers a call as its map does.** -/
theorem map_answer {call : MemoryCall} (h : mem.readOnly ≠ none → call.endsInside) :
    mem.map.answer call = (mem.answer call).map map id := by
  cases call with
  | load address size =>
    simp only [ByteMap.answer, answer]
    rw [load_eq]
    cases hfault : mem.map.fault? address size.bytes false with
    | some fault => rfl
    | none =>
      have hspans := ByteMap.spans_of_fault? size.bytes_pos hfault
      have hlt : Bytes.littleEndian (Bytes.slice mem.bytes (mem.index address) size.bytes)
          < 2 ^ 64 :=
        calc
          _ < 256 ^ (Bytes.slice mem.bytes (mem.index address) size.bytes).length :=
            Bytes.littleEndian_lt _
          _ ≤ 256 ^ 8 := by
            rw [length_slice]
            exact Nat.pow_le_pow_right (by decide) size.bytes_le
      dsimp only
      rw [UInt64.toNat_ofNat', Nat.mod_eq_of_lt hlt, littleEndian_slice hspans]
      rfl
  | store address size value =>
    have hfault? := storeFault?_eq fun hrange => of_decide_eq_true (h hrange)
    simp only [ByteMap.answer, answer, store, hfault?]
    cases hfault : mem.map.fault? address size.bytes true with
    | some fault => rfl
    | none =>
      have hspans := ByteMap.spans_of_fault? size.bytes_pos hfault
      have hlength := Bytes.length_ofWord value size.bytes
      rw [← hlength] at hspans
      have hmap : (mem.write address size value).map = _ := map_put hspans rfl rfl rfl
      rw [hlength] at hmap
      rw [← ByteMap.overwrite_congr fun i hi => Bytes.getD_ofWord value hi size.bytes_le]
      exact congrArg (·, MemoryAnswer.done) hmap.symm
  | loadImage address data => exact (map_settle_loadImage ..).symm
  | writeWords address words =>
    simp only [ByteMap.answer, answer, writeWords, map_settle_loadImage,
      Bytes.length_flatMap_ofWord]
    rw [ByteMap.overwrite_congr fun i hi => Bytes.getD_flatMap_ofWord words hi]
  | readBytes address length =>
    simp only [ByteMap.answer, answer, readBytes]
    by_cases h : mem.map.Spans address.toNat length
    · rw [if_pos (maps_iff_spans.2 h), if_pos h, slice_eq_map h]
      rfl
    · rw [if_neg (mt maps_iff_spans.1 h), if_neg h]
      rfl
  | protect start stop => rfl

theorem readOnly_loadImage {mem' : Memory} {data : List UInt8}
    (h : mem.loadImage address data = .ok mem') : mem'.readOnly = mem.readOnly := by
  unfold loadImage at h
  split at h <;> cases h
  rfl

/-- Only `protect` changes the read-only range. -/
theorem readOnly_answer (mem : Memory) {call : MemoryCall} (h : call.protects = false) :
    (mem.answer call).1.readOnly = mem.readOnly := by
  cases call with
  | load address size =>
    simp only [answer]
    cases mem.load address size <;> rfl
  | store address size value =>
    simp only [answer, store]
    cases mem.storeFault? address size <;> rfl
  | loadImage address data =>
    simp only [answer]
    cases hwritten : mem.loadImage address data with
    | ok mem' => exact readOnly_loadImage hwritten
    | error fault => rfl
  | writeWords address words =>
    simp only [answer]
    cases hwritten : mem.writeWords address words with
    | ok mem' => exact readOnly_loadImage hwritten
    | error fault => rfl
  | readBytes address length =>
    simp only [answer]
    cases mem.readBytes address length <;> rfl
  | protect start stop => cases h

/-- The answers to several calls are those of the map, whose read-only range may be set before the
calls or by one of them. -/
theorem map_answerAll (calls : List MemoryCall)
    (hbefore : mem.readOnly ≠ none → ∀ call ∈ calls, call.endsInside) (h : StoresEnd calls) :
    answerAll ByteMap.answer mem.map calls = (answerAll answer mem calls).map map id := by
  induction calls generalizing mem with
  | nil => rfl
  | cons call calls ih =>
    obtain ⟨hcall, hrest⟩ := List.pairwise_cons.1 h
    have hfirst := map_answer fun hrange => hbefore hrange call List.mem_cons_self
    have hlater (hrange : (mem.answer call).1.readOnly ≠ none) :
        ∀ later ∈ calls, later.endsInside := by
      intro later hmem
      cases hprotects : call.protects with
      | true => exact hcall later hmem hprotects
      | false =>
        rw [readOnly_answer mem hprotects] at hrange
        exact hbefore hrange later (List.mem_cons_of_mem _ hmem)
    simp only [answerAll, hfirst, Prod.map_fst, Prod.map_snd, ih hlater hrest, id_eq]
    rfl

/-- **A memory is a map of bytes**: it answers like the map as long as the end of no store wraps
around while a range is protected. -/
theorem refines_byteMap (base size : UInt64) (calls : List MemoryCall) (h : StoresEnd calls) :
    (answerAll answer (zeroed base size.toNat) calls).map map id =
      answerAll ByteMap.answer (.zeroed base.toNat size.toNat) calls := by
  have hsize : (zeroed base size.toNat).size = size.toNat := by
    change (Array.replicate size.toNat.toUInt64.toNat 0).size = _
    rw [Array.size_replicate, Nat.toUInt64_eq, UInt64.ofNat_toNat]
  have hbyte : (fun a => ((zeroed base size.toNat).byte? a).getD 0) = fun _ => 0 := by
    funext a
    change (if base.toNat ≤ a then (Array.replicate _ 0)[a - base.toNat]? else none).getD 0 = 0
    split
    · rw [Array.getElem?_replicate]
      split <;> rfl
    · rfl
  have hstart : (zeroed base size.toNat).map = .zeroed base.toNat size.toNat := by
    rw [map, hsize, hbyte]
    rfl
  rw [← hstart, map_answerAll calls (fun hrange => absurd rfl hrange) h]

/-- Two stores into a memory of which the upper half is protected.  The first one reaches up to the
protected bytes and is done, the second one touches them and is refused; a load sees the first. -/
theorem refines_byteMap_protected :
    let calls : List MemoryCall :=
      [.protect 0x1008 0x1010, .store 0x1000 .quad 0x1234, .store 0x100C .long 5,
        .load 0x1000 .word]
    StoresEnd calls ∧
      (answerAll answer (zeroed 0x1000 16) calls).2 =
        [.done, .done, .fault (.protection 0x100C), .number 0x1234] ∧
      (answerAll answer (zeroed 0x1000 16) calls).map map id =
        answerAll ByteMap.answer (.zeroed 0x1000 16) calls := by
  refine ⟨by decide, by decide +kernel, ?_⟩
  exact refines_byteMap 0x1000 16 _ (by decide)

end Memory

end AlphaMachine
