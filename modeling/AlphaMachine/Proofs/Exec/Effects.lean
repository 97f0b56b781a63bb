import AlphaMachine.Proofs.Exec.Frame
import AlphaMachine.Proofs.Host.Buffer
import Mathlib.Tactic.ByContra

/-!
# What an instruction changes

`Instruction.Change i m m'` lists, once and for all, what completing the instruction `i` can make
of a machine `m`, with what each change asks of the instruction.  Every completed execution is one
of these changes (`execute_change`); what follows about registers, flags and memory is read off the
list.

* `Opcode.access` : which opcodes store, reserve or store conditionally, with their sizes;
* `Operation.access_eq`, `Operation.key_of_ownKey?` : the operations with such an effect are found
  under the right opcodes and function codes only;
* `Instruction.Frame` : the frame of a completed instruction;
* `execute_frame` : every completed instruction stays within its frame.
-/

namespace AlphaMachine

/-! ### Accesses -/

/-- What an opcode does with memory and the reservation. -/
inductive Access where
  /-- It writes neither. -/
  | none
  /-- It reserves the granule that it loads from. -/
  | reserve
  /-- It stores, and `down` to the quadword boundary below if so marked. -/
  | store (size : AccessSize) (down : Bool)
  /-- It stores while the reservation holds. -/
  | conditional (size : AccessSize)
  deriving DecidableEq

namespace Access

/-- The number of bytes that are stored, if any. -/
def size? : Access → Option AccessSize
  | .store size _ | .conditional size => some size
  | .none | .reserve => Option.none

/-- Where an access begins, given its effective address. -/
def start : Access → UInt64 → UInt64
  | .store _ true, address => alignDown address
  | _, address => address

end Access

/-- The access of an opcode. -/
def Opcode.access : Opcode → Access
  | .ldlL | .ldqL => .reserve
  | .stb => .store .byte false
  | .stw => .store .word false
  | .stl | .sts => .store .long false
  | .stq | .stt => .store .quad false
  | .stqU => .store .quad true
  | .stlC => .conditional .long
  | .stqC => .conditional .quad
  | _ => .none

/-- The access of a memory-format operation. -/
def MemoryOp.access : MemoryOp → Access
  | .loadLocked _ => .reserve
  | .store size => .store size false
  | .floatStore .single => .store .long false
  | .floatStore .double => .store .quad false
  | .storeUnaligned => .store .quad true
  | .storeConditional width => .conditional width.accessSize
  | _ => .none

namespace Operation

/-- The access of an operation. -/
def access : Operation → Access
  | .memory op => op.access
  | _ => .none

/-- **An opcode has the access of its operations.** -/
theorem access_eq {i : Instruction} {op : Operation} (h : ofInstruction? i = some op) :
    op.access = i.opcode.access := by
  obtain ⟨key, hkey, hP⟩ := entry_of_ofInstruction?
    (P := fun e => e.2.access == e.1.opcode.access) (by decide) h
  rw [← Instruction.opcode_of_key? hkey]
  exact eq_of_beq hP

end Operation

namespace Instruction

/-- The address that a memory-format instruction accesses. -/
def address? (i : Instruction) (cpu : Processor) : Option UInt64 :=
  match i with
  | .memory op _ rb displacement =>
    some (op.access.start (cpu.readInt rb + displacementWord displacement))
  | _ => none

/-- The first register field of a memory-format instruction. -/
def ra? : Instruction → Option Reg
  | .memory _ ra _ _ => some ra
  | _ => none

end Instruction

/-! ### Operations with a key of their own -/

namespace Key

/-- The PAL call that halts. -/
def halt : Key := ⟨.callPal, some 0x00⟩

/-- The PAL call that sets the unique value. -/
def writeUnique : Key := ⟨.callPal, some 0x9F⟩

/-- The write of the floating control register. -/
def writeControl : Key := ⟨.fltL, some 0x24⟩

/-- The exchange of the interrupt flag, with the new value. -/
def exchange (value : Bool) : Key := ⟨.misc, some (if value then 0x3C else 0x38)⟩

end Key

namespace Operation

/-- The one key of an operation that writes a processor register outside the two files. -/
def ownKey? : Operation → Option Key
  | .pal .halt => some .halt
  | .pal .writeUnique => some .writeUnique
  | .float .writeControl => some .writeControl
  | .memory (.exchangeFlag value) => some (.exchange value)
  | _ => none

theorem key_of_ownKey? {i : Instruction} {op : Operation} {key : Key}
    (h : ofInstruction? i = some op) (hkey : op.ownKey? = some key) : i.key? = some key := by
  obtain ⟨key', hkey', hP⟩ := entry_of_ofInstruction?
    (P := fun e => e.2.ownKey?.all (· == e.1)) (by decide) h
  rw [hkey, Option.all_some] at hP
  rw [hkey', eq_of_beq hP]

end Operation

/-! ### Changes -/

/-- What completing an instruction can make of a machine. -/
inductive Instruction.Change (i : Instruction) (m : Machine) : Machine → Prop where
  /-- Nothing. -/
  | quiet (haccess : i.opcode.access = .none) : Change i m m
  /-- An integer result. -/
  | int (haccess : i.opcode.access = .none) (r : Reg) (value : UInt64) :
      Change i m (m.writeInt r value)
  /-- A floating result. -/
  | fp (haccess : i.opcode.access = .none) (r : Reg) (value : UInt64) :
      Change i m (m.writeFp r value)
  /-- The machine halts. -/
  | halt (haccess : i.opcode.access = .none) (hkey : i.key? = some .halt)
      (hmode : m.cpu.mode = .kernel) : Change i m { m with cpu.halted := true }
  /-- The unique value is set. -/
  | unique (haccess : i.opcode.access = .none) (hkey : i.key? = some .writeUnique)
      (value : UInt64) : Change i m { m with cpu.unique := value }
  /-- The floating control register is set. -/
  | control (haccess : i.opcode.access = .none) (hkey : i.key? = some .writeControl)
      (value : UInt64) : Change i m { m with cpu.fpcr := value }
  /-- The interrupt flag is set and its old value returned. -/
  | exchange (haccess : i.opcode.access = .none) (flag : Bool)
      (hkey : i.key? = some (.exchange flag)) (r : Reg) (value : UInt64) :
      Change i m ({ m with cpu.intrFlag := flag }.writeInt r value)
  /-- A granule is reserved and a value loaded. -/
  | reserve (haccess : i.opcode.access = .reserve) {address : UInt64}
      (haddress : i.address? m.cpu = some address) (r : Reg) (value : UInt64) :
      Change i m ({ m with cpu := m.cpu.setLock address }.writeInt r value)
  /-- A value is stored. -/
  | store {size : AccessSize} {down : Bool} (haccess : i.opcode.access = .store size down)
      {address : UInt64} (haddress : i.address? m.cpu = some address)
      (hfault : m.mem.storeFault? address size = none) (value : UInt64) :
      Change i m
        ⟨{ m.cpu with lockFlag := m.cpu.lockFlag && Processor.granule address != m.cpu.lockAddr },
          m.mem.write address size value⟩
  /-- A value is stored under a reservation, which is dropped. -/
  | conditional {size : AccessSize} (haccess : i.opcode.access = .conditional size)
      {address : UInt64} (haddress : i.address? m.cpu = some address)
      (hfault : m.mem.storeFault? address size = none) {r : Reg} (hra : i.ra? = some r)
      (value : UInt64) :
      Change i m
        ⟨{ m.cpu with lockFlag := false }.writeInt r 1, m.mem.write address size value⟩
  /-- There is no reservation and nothing is stored. -/
  | refused {size : AccessSize} (haccess : i.opcode.access = .conditional size) {r : Reg}
      (hra : i.ra? = some r) :
      Change i m ⟨{ m.cpu with lockFlag := false }.writeInt r 0, m.mem⟩

/-- If the outcome is completion, the machine has changed as the instruction may change it. -/
def Outcome.Changes (i : Instruction) (m : Machine) : Outcome → Prop
  | .done m' _ => i.Change m m'
  | .trapped _ _ => True

theorem Processor.clearLockOnStore_eq (cpu : Processor) (address : UInt64) :
    cpu.clearLockOnStore address =
      { cpu with lockFlag := cpu.lockFlag && granule address != cpu.lockAddr } := by
  unfold clearLockOnStore
  split
  · next h =>
    rw [Bool.and_eq_true] at h
    simp [bne, h.2]
  · next h =>
    have hflag : (cpu.lockFlag && granule address != cpu.lockAddr) = cpu.lockFlag := by
      cases hlock : cpu.lockFlag <;> simp_all
    rw [hflag]

section Families

open Instruction

variable {i : Instruction} {m : Machine} {pc : UInt64}

theorem changes_raise (kind : TrapKind) : (m.raise kind pc).Changes i m := trivial

theorem changes_requireFp {k : Outcome} (h : k.Changes i m) : (m.requireFp pc k).Changes i m := by
  unfold Machine.requireFp
  split
  · exact h
  · exact changes_raise _

theorem changes_returnChecked (haccess : i.opcode.access = .none) (r : Reg)
    (value : Option UInt64) : (m.returnChecked pc r value).Changes i m := by
  cases value with
  | none => exact changes_raise _
  | some value => exact .int haccess r value

theorem changes_loadThen {address : UInt64} {size : AccessSize} {k : UInt64 → Outcome}
    (h : ∀ value, (k value).Changes i m) : (m.loadThen pc address size k).Changes i m := by
  unfold Machine.loadThen
  split
  · exact h _
  · trivial

theorem changes_storeInt {size : AccessSize} {down : Bool}
    (haccess : i.opcode.access = .store size down) {address : UInt64}
    (haddress : i.address? m.cpu = some address) (value : UInt64) :
    (m.storeInt pc address size value).Changes i m := by
  unfold Machine.storeInt
  split
  · trivial
  · next hfault =>
    rw [Processor.clearLockOnStore_eq]
    exact .store haccess haddress hfault value

theorem OperateOp.run_changes (op : OperateOp) (haccess : i.opcode.access = .none) (ra : Reg)
    (rb : Operand) (rc : Reg) : (op.run pc ra rb rc m).Changes i m := by
  cases op with
  | arithChecked | multiplyChecked => exact changes_returnChecked haccess ..
  | moveIf condition =>
    simp only [run]
    split
    · exact .int haccess ..
    · exact .quiet haccess
  | moveFromFloat precision => cases precision <;> exact changes_requireFp (.int haccess ..)
  | _ => exact .int haccess ..

theorem FloatOp.runEnabled_changes {op : FloatOp} (haccess : i.opcode.access = .none)
    (hkey : op = .writeControl → i.key? = some .writeControl) (fa fb : Reg) (function : Nat)
    (fc : Reg) : (op.runEnabled pc fa fb function fc m).Changes i m := by
  cases op with
  | moveFromInt precision => cases precision <;> exact .fp haccess ..
  | arith op precision =>
    cases op with
    | div =>
      simp only [runEnabled]
      split
      · exact changes_raise _
      · exact .fp haccess ..
    | _ => exact .fp haccess ..
  | quadToLong =>
    simp only [runEnabled]
    split
    · trivial
    · exact .fp haccess ..
  | writeControl => exact .control haccess (hkey rfl) _
  | moveIf condition =>
    simp only [runEnabled]
    split
    · exact .fp haccess ..
    · exact .quiet haccess
  | _ => exact .fp haccess ..

theorem MemoryOp.runLoad_changes (haccess : i.opcode.access = .none) (size : AccessSize)
    (address : UInt64) (ra : Reg) : (runLoad size pc address ra m).Changes i m := by
  unfold runLoad
  split
  · exact .quiet haccess
  · exact changes_loadThen fun _ => .int haccess ..

theorem MemoryOp.runStoreConditional_changes {size : AccessSize}
    (haccess : i.opcode.access = .conditional size) {address : UInt64}
    (haddress : i.address? m.cpu = some address) {ra : Reg} (hra : i.ra? = some ra) :
    (runStoreConditional size pc address ra m).Changes i m := by
  simp only [runStoreConditional]
  split
  · split
    · trivial
    · next hfault => exact .conditional haccess haddress hfault hra _
  · exact .refused haccess hra

-- The opcode knows where the access begins, the operation does the arithmetic: the two agree
-- because they have the same access.
theorem MemoryOp.run_changes {op : MemoryOp} {opcode : Opcode} {ra rb : Reg} {displacement : Int16}
    (hi : i = .memory opcode ra rb displacement) (haccess : op.access = i.opcode.access)
    (hkey : ∀ value, op = .exchangeFlag value → i.key? = some (.exchange value)) :
    (op.run pc ra rb displacement m).Changes i m := by
  have haddress : i.address? m.cpu =
      some (op.access.start (m.cpu.readInt rb + displacementWord displacement)) := by
    rw [haccess, hi]
    rfl
  have hra : i.ra? = some ra := by
    rw [hi]
    rfl
  cases op with
  | load | loadUnaligned => exact runLoad_changes haccess.symm ..
  | loadLocked width => exact changes_loadThen fun _ => .reserve haccess.symm haddress ..
  | store | storeUnaligned => exact changes_storeInt haccess.symm haddress _
  | storeConditional width => exact runStoreConditional_changes haccess.symm haddress hra
  | floatLoad precision =>
    refine changes_requireFp ?_
    split
    · exact .quiet haccess.symm
    · cases precision <;> exact changes_loadThen fun _ => .fp haccess.symm ..
  | floatStore precision =>
    cases precision <;> exact changes_requireFp (changes_storeInt haccess.symm haddress _)
  | barrier => exact .quiet haccess.symm
  | exchangeFlag value => exact .exchange haccess.symm value (hkey value rfl) ..
  | privileged => exact changes_raise _
  | _ => exact .int haccess.symm ..

theorem BranchOp.run_changes (op : BranchOp) (haccess : i.opcode.access = .none) (ra : Reg)
    (displacement : Int) : (op.run pc ra displacement m).Changes i m := by
  cases op with
  | link => exact .int haccess ..
  | onInt condition => exact .quiet haccess
  | onFloat condition => exact changes_requireFp (.quiet haccess)

theorem PalOp.run_changes {op : PalOp} (haccess : i.opcode.access = .none)
    (hkey : ∀ key, (Operation.pal op).ownKey? = some key → i.key? = some key) :
    (op.run pc m).Changes i m := by
  cases op with
  | halt =>
    simp only [run]
    split
    · next hmode => exact .halt haccess (hkey _ rfl) hmode
    · exact changes_raise _
  | flushCode => exact .quiet haccess
  | readUnique => exact .int haccess ..
  | writeUnique => exact .unique haccess (hkey _ rfl) _
  | _ => exact changes_raise _

end Families

variable {word : UInt32} {pc : UInt64} {m m' : Machine} {flow : Flow}

/-- **A completed instruction makes one of the listed changes.** -/
theorem execute_change (h : execute word pc m = .done m' flow) :
    (Instruction.decode word).Change m m' := by
  cases hop : Operation.ofInstruction? (.decode word) with
  | none =>
    rw [execute_of_none hop] at h
    cases h
  | some op =>
    have haccess := Operation.access_eq hop
    have hkey (key : Key) : op.ownKey? = some key → (Instruction.decode word).key? = some key :=
      Operation.key_of_ownKey? hop
    have hchanges : (op.run pc (.decode word) m).Changes (.decode word) m := by
      have hfits := Operation.fits_decode hop
      generalize Instruction.decode word = i at hfits haccess hkey ⊢
      cases hfits with
      | operate op opcode ra rb function rc => exact op.run_changes haccess.symm ra rb rc
      | float op opcode fa fb function fc =>
        refine changes_requireFp (FloatOp.runEnabled_changes haccess.symm ?_ fa fb function fc)
        rintro rfl
        exact hkey _ rfl
      | memory op opcode ra rb displacement =>
        refine MemoryOp.run_changes rfl haccess ?_
        rintro value rfl
        exact hkey _ rfl
      | branch op opcode ra displacement => exact op.run_changes haccess.symm ra displacement
      | pal op function => exact PalOp.run_changes haccess.symm hkey
    rwa [← execute_of_operation hop, h] at hchanges

/-! ### Registers and bytes -/

/-- A register of either file. -/
inductive Slot where
  /-- An integer register. -/
  | int (r : Reg)
  /-- A floating register. -/
  | fp (r : Reg)
  deriving DecidableEq

/-- The number of a register in its file. -/
def Slot.number : Slot → Reg
  | .int r | .fp r => r

namespace Processor

/-- What the register file holds for a register, register 31 included. -/
def slot (cpu : Processor) : Slot → UInt64
  | .int r => cpu.int.get r
  | .fp r => cpu.fp.get r

variable {cpu cpu' : Processor} {r : Reg} {value : UInt64} {s : Slot}

theorem slot_congr (hint : cpu'.int = cpu.int) (hfp : cpu'.fp = cpu.fp) (s : Slot) :
    cpu'.slot s = cpu.slot s := by
  cases s with
  | int r => exact congrArg (·.get r) hint
  | fp r => exact congrArg (·.get r) hfp

theorem get_write_of_ne (file : RegisterFile) {r r' : Reg} (h : r' ≠ r ∨ r = Reg.zero)
    (value : UInt64) : (file.write r value).get r' = file.get r' := by
  unfold RegisterFile.write
  split
  · rfl
  · next hr =>
    have hne : r' ≠ r := h.resolve_right hr
    exact Vector.getElem_set_ne _ _ fun heq => hne (Fin.ext heq.symm)

theorem slot_writeInt (hint : cpu'.int = cpu.int.write r value) (hfp : cpu'.fp = cpu.fp)
    (h : s ≠ .int r ∨ r = Reg.zero) : cpu'.slot s = cpu.slot s := by
  cases s with
  | int r' =>
    rw [slot, slot, hint]
    exact get_write_of_ne _ (h.imp_left fun hne heq => hne (congrArg Slot.int heq)) _
  | fp r' => exact congrArg (·.get r') hfp

theorem slot_writeFp (hint : cpu'.int = cpu.int) (hfp : cpu'.fp = cpu.fp.write r value)
    (h : s ≠ .fp r ∨ r = Reg.zero) : cpu'.slot s = cpu.slot s := by
  cases s with
  | int r' => exact congrArg (·.get r') hint
  | fp r' =>
    rw [slot, slot, hfp]
    exact get_write_of_ne _ (h.imp_left fun hne heq => hne (congrArg Slot.fp heq)) _

/-- At most one register differs, and it is not number 31. -/
def AtMostOne (cpu cpu' : Processor) : Prop :=
  ∃ r : Slot, r.number ≠ Reg.zero ∧ ∀ s ≠ r, cpu'.slot s = cpu.slot s

theorem atMostOne_congr (hint : cpu'.int = cpu.int) (hfp : cpu'.fp = cpu.fp) :
    cpu.AtMostOne cpu' :=
  ⟨.int 0, by decide, fun s _ => slot_congr hint hfp s⟩

theorem atMostOne_of_slot (r : Slot)
    (h : ∀ s, s ≠ r ∨ r.number = Reg.zero → cpu'.slot s = cpu.slot s) : cpu.AtMostOne cpu' := by
  -- A write to register 31 has no effect: then nothing differs, and any register will do.
  by_cases hr : r.number = Reg.zero
  · exact ⟨.int 0, by decide, fun s _ => h s (.inr hr)⟩
  · exact ⟨r, hr, fun s hs => h s (.inl hs)⟩

theorem atMostOne_writeInt (hint : cpu'.int = cpu.int.write r value) (hfp : cpu'.fp = cpu.fp) :
    cpu.AtMostOne cpu' :=
  atMostOne_of_slot (.int r) fun _ hs => slot_writeInt hint hfp hs

theorem atMostOne_writeFp (hint : cpu'.int = cpu.int) (hfp : cpu'.fp = cpu.fp.write r value) :
    cpu.AtMostOne cpu' :=
  atMostOne_of_slot (.fp r) fun _ hs => slot_writeFp hint hfp hs

end Processor

namespace Memory

/-- The byte at an address, if it is mapped. -/
def byte? (mem : Memory) (address : Nat) : Option UInt8 :=
  if mem.base.toNat ≤ address then mem.bytes[address - mem.base.toNat]? else none

theorem maps_of_storeFault? {mem : Memory} {address : UInt64} {size : AccessSize}
    (h : mem.storeFault? address size = none) : mem.maps address size.bytes = true := by
  unfold storeFault? at h
  split at h
  · cases h
  · split at h
    · cases h
    · split at h
      · cases h
      · next hmaps => simpa using hmaps

/-- **A store changes the bytes at its address only.** -/
theorem byte?_write {mem : Memory} {address : UInt64} {size : AccessSize}
    (h : mem.storeFault? address size = none) (value : UInt64) {a : Nat}
    (ha : a < address.toNat ∨ address.toNat + size.bytes ≤ a) :
    (mem.write address size value).byte? a = mem.byte? a := by
  have hmaps := maps_of_storeFault? h
  simp only [maps, Bool.and_eq_true, decide_eq_true_eq] at hmaps
  have hbase : mem.base.toNat ≤ address.toNat := UInt64.le_iff_toNat_le.1 hmaps.1
  show (if mem.base.toNat ≤ a then
      (Bytes.put mem.bytes (mem.index address) (Bytes.ofWord value size.bytes))[a - mem.base.toNat]?
    else none) = if mem.base.toNat ≤ a then mem.bytes[a - mem.base.toNat]? else none
  split
  · refine Bytes.getElem?_put ?_
    rw [Bytes.length_ofWord, index]
    omega
  · rfl

end Memory

/-! ### Frame -/

/-- What a completed instruction leaves alone. -/
structure Instruction.Frame (i : Instruction) (m m' : Machine) : Prop where
  /-- Counters, mode, enables, the pending slot and the extent of memory stay. -/
  keeps : m.Keeps m'
  /-- Only HALT halts, and only in kernel mode. -/
  halted : m'.cpu.halted ≠ m.cpu.halted →
    m'.cpu.halted = true ∧ i.key? = some .halt ∧ m.cpu.mode = .kernel
  /-- At most one register is written, never register 31. -/
  registers : m.cpu.AtMostOne m'.cpu
  /-- The unique value has a PAL call of its own. -/
  unique : m'.cpu.unique ≠ m.cpu.unique → i.key? = some .writeUnique
  /-- The floating control register has an instruction of its own. -/
  fpcr : m'.cpu.fpcr ≠ m.cpu.fpcr → i.key? = some .writeControl
  /-- The interrupt flag is exchanged by two instructions. -/
  intrFlag : m'.cpu.intrFlag ≠ m.cpu.intrFlag → ∃ value, i.key? = some (.exchange value)
  /-- Only load-locked instructions reserve. -/
  lockAddr : m'.cpu.lockAddr ≠ m.cpu.lockAddr → i.opcode.access = .reserve
  /-- Reservations are made by load-locked instructions and dropped by stores. -/
  lockFlag : m'.cpu.lockFlag ≠ m.cpu.lockFlag → i.opcode.access ≠ .none
  /-- The read-only range stays. -/
  readOnly : m'.mem.readOnly = m.mem.readOnly
  /-- Only stores write memory, within the bytes they address. -/
  memory : ∀ a, m'.mem.byte? a ≠ m.mem.byte? a → ∃ address size,
    i.address? m.cpu = some address ∧ i.opcode.access.size? = some size ∧
      address.toNat ≤ a ∧ a < address.toNat + size.bytes
  /-- Stores write no register, but for the first one of a store-conditional. -/
  stored : i.opcode.access.size?.isSome → ∀ s, m'.cpu.slot s ≠ m.cpu.slot s →
    (∃ size, i.opcode.access = .conditional size) ∧ ∃ ra, i.ra? = some ra ∧ s = .int ra

namespace Instruction.Change

variable {i : Instruction}

theorem halted (h : i.Change m m') (hne : m'.cpu.halted ≠ m.cpu.halted) :
    m'.cpu.halted = true ∧ i.key? = some .halt ∧ m.cpu.mode = .kernel := by
  cases h with
  | halt _ hkey hmode => exact ⟨rfl, hkey, hmode⟩
  | _ => exact absurd rfl hne

theorem registers (h : i.Change m m') : m.cpu.AtMostOne m'.cpu := by
  cases h with
  | quiet | halt | unique | control | store => exact Processor.atMostOne_congr rfl rfl
  | int | exchange | reserve | conditional | refused => exact Processor.atMostOne_writeInt rfl rfl
  | fp => exact Processor.atMostOne_writeFp rfl rfl

theorem unique_eq (h : i.Change m m') (hne : m'.cpu.unique ≠ m.cpu.unique) :
    i.key? = some .writeUnique := by
  cases h with
  | unique _ hkey => exact hkey
  | _ => exact absurd rfl hne

theorem fpcr_eq (h : i.Change m m') (hne : m'.cpu.fpcr ≠ m.cpu.fpcr) :
    i.key? = some .writeControl := by
  cases h with
  | control _ hkey => exact hkey
  | _ => exact absurd rfl hne

theorem intrFlag_eq (h : i.Change m m') (hne : m'.cpu.intrFlag ≠ m.cpu.intrFlag) :
    ∃ value, i.key? = some (.exchange value) := by
  cases h with
  | exchange _ flag hkey => exact ⟨flag, hkey⟩
  | _ => exact absurd rfl hne

theorem lockAddr_eq (h : i.Change m m') (hne : m'.cpu.lockAddr ≠ m.cpu.lockAddr) :
    i.opcode.access = .reserve := by
  cases h with
  | reserve haccess => exact haccess
  | _ => exact absurd rfl hne

theorem lockFlag_eq (h : i.Change m m') (hne : m'.cpu.lockFlag ≠ m.cpu.lockFlag) :
    i.opcode.access ≠ .none := by
  cases h with
  | reserve haccess | store haccess | conditional haccess | refused haccess =>
    rw [haccess]
    exact nofun
  | _ => exact absurd rfl hne

theorem memory (h : i.Change m m') {a : Nat} (hne : m'.mem.byte? a ≠ m.mem.byte? a) :
    ∃ address size, i.address? m.cpu = some address ∧ i.opcode.access.size? = some size ∧
      address.toNat ≤ a ∧ a < address.toNat + size.bytes := by
  cases h with
  | store haccess haddress hfault | conditional haccess haddress hfault =>
    refine ⟨_, _, haddress, by rw [haccess]; rfl, ?_⟩
    by_contra hout
    exact hne (Memory.byte?_write hfault _ (by omega))
  | _ => exact absurd rfl hne

theorem stored (h : i.Change m m') (hsize : i.opcode.access.size?.isSome) {s : Slot}
    (hne : m'.cpu.slot s ≠ m.cpu.slot s) :
    (∃ size, i.opcode.access = .conditional size) ∧ ∃ ra, i.ra? = some ra ∧ s = .int ra := by
  cases h with
  | store => exact absurd (Processor.slot_congr rfl rfl s) hne
  | conditional haccess _ _ hra | refused haccess hra =>
    refine ⟨⟨_, haccess⟩, _, hra, ?_⟩
    by_contra hs
    exact hne (Processor.slot_writeInt rfl rfl (.inl hs))
  | quiet haccess | int haccess | fp haccess | halt haccess | unique haccess | control haccess
  | exchange haccess | reserve haccess =>
    rw [haccess] at hsize
    cases hsize

end Instruction.Change

/-- **Every completed instruction stays within its frame.**  In user mode, in particular, no
instruction halts the machine or changes the mode. -/
theorem execute_frame (h : execute word pc m = .done m' flow) :
    (Instruction.decode word).Frame m m' ∧
      (m.cpu.mode = .user → m'.cpu.halted = m.cpu.halted ∧ m'.cpu.mode = .user) := by
  have hchange := execute_change h
  have hkeeps := execute_keeps word pc m
  rw [h] at hkeeps
  refine ⟨?_, fun huser => ⟨?_, hkeeps.mode.trans huser⟩⟩
  · exact {
      keeps := hkeeps
      halted := hchange.halted
      registers := hchange.registers
      unique := hchange.unique_eq
      fpcr := hchange.fpcr_eq
      intrFlag := hchange.intrFlag_eq
      lockAddr := hchange.lockAddr_eq
      lockFlag := hchange.lockFlag_eq
      readOnly := by cases hchange <;> rfl
      memory := fun _ => hchange.memory
      stored := fun hsize _ => hchange.stored hsize }
  · by_contra hne
    have hkernel := (hchange.halted hne).2.2
    rw [huser] at hkernel
    cases hkernel

/-- A machine in kernel mode that is about to store a byte. -/
def storing : Machine :=
  ⟨((Processor.startingAt 0x1000).writeInt 1 0x7F).writeInt 2 0x1000, .zeroed 0x1000 16⟩

/-- The hypothesis can be met: by a store of one byte, and by the PAL call that halts. -/
theorem execute_frame_storing :
    (∃ m', execute 0x38220003 0x1000 storing = .done m' .next ∧
      m'.mem.byte? 0x1003 = some 0x7F ∧ (Instruction.decode 0x38220003).Frame storing m') ∧
    ∃ m', execute 0 0x1000 storing = .done m' .next ∧
      m'.cpu.halted = true ∧ (Instruction.decode 0).Frame storing m' := by
  have hbyte : Operation.ofInstruction? (.decode 0x38220003) = some (.memory (.store .byte)) :=
    Operation.ofInstruction?_of_registered ⟨.stb, none⟩ rfl (by decide)
  have hpal : Operation.ofInstruction? (.decode 0) = some (.pal .halt) :=
    Operation.ofInstruction?_of_registered .halt rfl (by decide)
  have hstore : execute 0x38220003 0x1000 storing =
      .done ⟨storing.cpu, storing.mem.write 0x1003 .byte 0x7F⟩ .next := by
    rw [execute_of_operation hbyte]
    decide
  have hhalt : execute 0 0x1000 storing = .done { storing with cpu.halted := true } .next := by
    rw [execute_of_operation hpal]
    decide
  exact ⟨⟨_, hstore, by decide, (execute_frame hstore).1⟩,
    ⟨_, hhalt, rfl, (execute_frame hhalt).1⟩⟩

end AlphaMachine
