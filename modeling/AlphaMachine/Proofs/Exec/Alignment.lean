import AlphaMachine.Proofs.Exec.Effects

/-!
# Alignment

Instructions stand at multiples of four.  An instruction at such an address goes on at such an
address (`execute_lands`): branches count in instructions, and jumps clear the low bits of their
target.  The addresses that trap delivery writes are of this kind too, if the vectors are
(`aligned_vector`, `Trap.aligned_exceptionAddress`).

Data is aligned to its own size.  An instruction that raises a trap for a misaligned access is a
load or a store (`Opcode.dataSize?`), and the trap carries the address of its data
(`execute_unaligned`); traps of other kinds carry an address if their kind asks for one
(`execute_hasAddress`).
-/

namespace AlphaMachine

/-! ### Addresses of instructions -/

/-- An address at which an instruction can stand. -/
def Aligned (address : UInt64) : Prop := 4 ∣ address.toNat

section Addresses

variable {a b : UInt64}

theorem aligned_iff_isAligned : Aligned a ↔ Memory.isAligned a .long = true :=
  Nat.dvd_iff_mod_eq_zero.trans decide_eq_true_iff.symm

theorem Aligned.add (ha : Aligned a) (hb : Aligned b) : Aligned (a + b) := by
  unfold Aligned at *
  rw [UInt64.toNat_add]
  omega

theorem Aligned.add_four (ha : Aligned a) : Aligned (a + 4) := ha.add ⟨1, rfl⟩

/-- A whole number of instructions, forwards or backwards. -/
theorem aligned_ofInt (n : Int) : Aligned (UInt64.ofInt (4 * n)) := by
  have hlt : 4 * n % 2 ^ 64 < 2 ^ 64 := Int.emod_lt_of_pos _ (by decide)
  have hnat : (UInt64.ofInt (4 * n)).toNat = (4 * n % 2 ^ 64).toNat := by
    simp only [UInt64.ofInt, UInt64.toNat_ofNat']
    omega
  unfold Aligned
  rw [hnat]
  omega

theorem aligned_branchTarget (ha : Aligned a) (displacement : Int) :
    Aligned (branchTarget a displacement) :=
  ha.add_four.add (aligned_ofInt displacement)

/-- A mask without low bits leaves no low bits. -/
theorem two_pow_dvd_and (a : UInt64) {mask : UInt64} {k : Nat} (h : mask.toNat % 2 ^ k = 0) :
    2 ^ k ∣ (a &&& mask).toNat := by
  rw [Nat.dvd_iff_mod_eq_zero, UInt64.toNat_and, Nat.and_mod_two_pow, h, Nat.and_zero]

theorem aligned_and_not_three (a : UInt64) : Aligned (a &&& ~~~3) :=
  two_pow_dvd_and (k := 2) a (by decide)

theorem isAligned_alignDown (a : UInt64) : Memory.isAligned (alignDown a) .quad = true :=
  decide_eq_true (Nat.dvd_iff_mod_eq_zero.1 (two_pow_dvd_and (k := 3) a (by decide)))

theorem aligned_vector {vectors : TrapVectors} (h : Aligned vectors.base) (kind : TrapKind) :
    Aligned (vectors.vector kind) := by
  refine h.add ?_
  -- Handlers are 128 bytes apart.
  cases kind <;> exact Nat.dvd_iff_mod_eq_zero.2 (by decide)

theorem Trap.aligned_exceptionAddress {trap : Trap} (h : Aligned trap.pc) :
    Aligned trap.exceptionAddress := by
  unfold exceptionAddress
  split
  · exact h.add_four
  · exact h

end Addresses

/-! ### Where instructions go on -/

namespace Outcome

/-- If an instruction at `pc` completes, execution goes on at an address for instructions. -/
def Lands (pc : UInt64) : Outcome → Prop
  | .done _ flow => Aligned (flow.nextPc pc)
  | .trapped _ _ => True

variable {pc : UInt64} {m : Machine}

theorem Straight.lands {o : Outcome} (h : o.Straight pc m) (hpc : Aligned pc) : o.Lands pc := by
  cases o with
  | done m' flow =>
    obtain ⟨-, rfl⟩ := h
    exact hpc.add_four
  | trapped m' trap => trivial

theorem lands_requireFp {k : Outcome} (h : k.Lands pc) : (m.requireFp pc k).Lands pc := by
  unfold Machine.requireFp
  split
  · exact h
  · trivial

/-- A branch that is taken or not. -/
theorem lands_branch (hpc : Aligned pc) (displacement : Int) (taken : Bool) :
    (Outcome.done m (if taken then .jump (branchTarget pc displacement) else .next)).Lands pc := by
  cases taken with
  | true => exact aligned_branchTarget hpc displacement
  | false => exact hpc.add_four

end Outcome

section Families

open Outcome

variable {m : Machine} {pc : UInt64}

theorem MemoryOp.run_lands (op : MemoryOp) (hpc : Aligned pc) (ra rb : Reg)
    (displacement : Int16) : (op.run pc ra rb displacement m).Lands pc := by
  by_cases hjump : op = .jump
  · subst hjump
    exact aligned_and_not_three _
  · exact (run_straight hjump ra rb displacement).lands hpc

theorem BranchOp.run_lands (op : BranchOp) (hpc : Aligned pc) (ra : Reg) (displacement : Int) :
    (op.run pc ra displacement m).Lands pc := by
  cases op with
  | link => exact aligned_branchTarget hpc displacement
  | onInt condition => exact lands_branch hpc displacement _
  | onFloat condition => exact lands_requireFp (lands_branch hpc displacement _)

theorem PalOp.run_lands (op : PalOp) (hpc : Aligned pc) : (op.run pc m).Lands pc := by
  cases op with
  | halt =>
    simp only [run]
    split
    · exact hpc.add_four
    · trivial
  | flushCode | readUnique | writeUnique => exact hpc.add_four
  | _ => trivial

theorem Operation.run_lands (op : Operation) (hpc : Aligned pc) (i : Instruction) :
    (op.run pc i m).Lands pc := by
  unfold Operation.run
  split
  · exact (OperateOp.run_straight ..).lands hpc
  · exact (FloatOp.run_straight ..).lands hpc
  · exact MemoryOp.run_lands _ hpc ..
  · exact BranchOp.run_lands _ hpc ..
  · exact PalOp.run_lands _ hpc
  · trivial

end Families

/-- **An instruction at a multiple of four goes on at a multiple of four**, whatever it branches
on and whatever registers it jumps through. -/
theorem execute_lands {pc : UInt64} (hpc : Aligned pc) (word : UInt32) (m : Machine) :
    (execute word pc m).Lands pc := by
  unfold execute Instruction.execute
  split
  · exact Operation.run_lands _ hpc _
  · trivial

/-! ### Data -/

/-- The size of the data that an opcode loads or stores. -/
def Opcode.dataSize? : Opcode → Option AccessSize
  | .ldbu | .stb => some .byte
  | .ldwu | .stw => some .word
  | .ldl | .ldlL | .lds | .stl | .stlC | .sts => some .long
  | .ldq | .ldqU | .ldqL | .ldt | .stq | .stqU | .stqC | .stt => some .quad
  | _ => none

/-- The size of the data of a precision. -/
def Precision.dataSize : Precision → AccessSize
  | .single => .long
  | .double => .quad

/-- The size of the data that a memory-format operation loads or stores. -/
def MemoryOp.dataSize? : MemoryOp → Option AccessSize
  | .load size | .store size => some size
  | .loadUnaligned | .storeUnaligned => some .quad
  | .loadLocked width | .storeConditional width => some width.accessSize
  | .floatLoad precision | .floatStore precision => some precision.dataSize
  | _ => none

/-- The size of the data that an operation loads or stores. -/
def Operation.dataSize? : Operation → Option AccessSize
  | .memory op => op.dataSize?
  | _ => none

/-- **An opcode has the data of its operations.** -/
theorem Operation.dataSize?_eq {i : Instruction} {op : Operation} (h : ofInstruction? i = some op) :
    op.dataSize? = i.opcode.dataSize? := by
  obtain ⟨key, hkey, hP⟩ := entry_of_ofInstruction?
    (P := fun e => e.2.dataSize? == e.1.opcode.dataSize?) (by decide) h
  rw [← Instruction.opcode_of_key? hkey]
  exact eq_of_beq hP

/-- The instruction loads or stores data of some size at `address`, which is not a multiple of the
size. -/
def Instruction.Misaligns (i : Instruction) (cpu : Processor) (address : UInt64) : Prop :=
  ∃ opcode ra rb displacement size, i = .memory opcode ra rb displacement ∧
    opcode.dataSize? = some size ∧ address = cpu.readInt rb + displacementWord displacement ∧
    ¬ size.bytes ∣ address.toNat

theorem Trap.kind_ofFault_eq {fault : MemoryFault} {pc : UInt64}
    (h : (ofFault fault pc).kind = .unalignedAccess) : ∃ address, fault = .unaligned address := by
  cases fault with
  | unaligned address => exact ⟨address, rfl⟩
  | _ => cases h

theorem Trap.isSome_address_ofFault (fault : MemoryFault) (pc : UInt64) :
    (ofFault fault pc).address.isSome = (ofFault fault pc).kind.hasAddress := by
  cases fault <;> rfl

theorem Memory.of_load_unaligned {mem : Memory} {address address' : UInt64} {size : AccessSize}
    (h : mem.load address size = .error (.unaligned address')) :
    address' = address ∧ isAligned address size = false := by
  unfold load at h
  split at h
  · next ha =>
    cases h
    exact ⟨rfl, by simpa using ha⟩
  · split at h <;> cases h

theorem Memory.of_storeFault_unaligned {mem : Memory} {address address' : UInt64}
    {size : AccessSize} (h : mem.storeFault? address size = some (.unaligned address')) :
    address' = address ∧ isAligned address size = false := by
  unfold storeFault? at h
  split at h
  · next ha =>
    cases h
    exact ⟨rfl, by simpa using ha⟩
  · split at h
    · cases h
    · split at h <;> cases h

namespace Outcome

/-- A trap has a data address if its kind asks for one, and a trap for a misaligned access is one
of an access to `size` bytes at `address`. -/
def Reports (address : UInt64) (size : AccessSize) : Outcome → Prop
  | .done _ _ => True
  | .trapped _ trap => trap.address.isSome = trap.kind.hasAddress ∧
    (trap.kind = .unalignedAccess →
      trap.address = some address ∧ Memory.isAligned address size = false)

variable {pc address : UInt64} {size : AccessSize} {m : Machine}

theorem reports_done (m' : Machine) (flow : Flow) :
    (Outcome.done m' flow).Reports address size := trivial

theorem reports_raise {kind : TrapKind} (hkind : kind.hasAddress = false) :
    (m.raise kind pc).Reports address size := by
  refine ⟨hkind.symm, ?_⟩
  rintro rfl
  cases hkind

theorem reports_requireFp {k : Outcome} (h : k.Reports address size) :
    (m.requireFp pc k).Reports address size := by
  unfold Machine.requireFp
  split
  · exact h
  · exact reports_raise rfl

theorem reports_loadThen {k : UInt64 → Outcome}
    (h : ∀ value, (k value).Reports address size) :
    (m.loadThen pc address size k).Reports address size := by
  unfold Machine.loadThen
  split
  · exact h _
  · next fault hfault =>
    refine ⟨Trap.isSome_address_ofFault fault pc, fun hkind => ?_⟩
    obtain ⟨address', rfl⟩ := Trap.kind_ofFault_eq hkind
    obtain ⟨rfl, ha⟩ := Memory.of_load_unaligned hfault
    exact ⟨rfl, ha⟩

theorem reports_of_storeFault {fault : MemoryFault}
    (h : m.mem.storeFault? address size = some fault) :
    (Outcome.trapped m (Trap.ofFault fault pc)).Reports address size := by
  refine ⟨Trap.isSome_address_ofFault fault pc, fun hkind => ?_⟩
  obtain ⟨address', rfl⟩ := Trap.kind_ofFault_eq hkind
  obtain ⟨rfl, ha⟩ := Memory.of_storeFault_unaligned h
  exact ⟨rfl, ha⟩

theorem reports_storeInt (value : UInt64) :
    (m.storeInt pc address size value).Reports address size := by
  unfold Machine.storeInt
  split
  · next hfault => exact reports_of_storeFault hfault
  · exact reports_done ..

theorem reports_returnChecked (r : Reg) (value : Option UInt64) :
    (m.returnChecked pc r value).Reports address size := by
  cases value with
  | none => exact reports_raise rfl
  | some value => exact reports_done ..

/-- An outcome that could only miss whatever address one names misses none. -/
theorem kind_ne_unalignedAccess {o : Outcome} {m' : Machine} {trap : Trap}
    (h : ∀ address size, o.Reports address size) (ho : o = .trapped m' trap) :
    trap.kind ≠ .unalignedAccess := by
  subst ho
  intro hkind
  -- Every address is a multiple of one.
  have hbyte : Memory.isAligned 0 .byte = false := ((h 0 .byte).2 hkind).2
  cases hbyte

/-- An access to a rounded address is never misaligned. -/
theorem Reports.of_isAligned {o : Outcome} {address' : UInt64}
    (h : o.Reports address' size) (ha : Memory.isAligned address' size = true)
    (address : UInt64) : o.Reports address size := by
  cases o with
  | done => trivial
  | trapped m' trap =>
    refine ⟨h.1, fun hkind => ?_⟩
    rw [(h.2 hkind).2] at ha
    cases ha

end Outcome

section Misaligned

open Outcome

variable {m : Machine} {pc : UInt64}

theorem MemoryOp.runLoad_reports (size : AccessSize) (address : UInt64) (ra : Reg) :
    (runLoad size pc address ra m).Reports address size := by
  unfold runLoad
  split
  · exact reports_done ..
  · exact reports_loadThen fun _ => reports_done ..

theorem MemoryOp.runStoreConditional_reports (size : AccessSize) (address : UInt64)
    (ra : Reg) : (runStoreConditional size pc address ra m).Reports address size := by
  simp only [runStoreConditional]
  split
  · split
    · next hfault => exact reports_of_storeFault hfault
    · exact reports_done ..
  · exact reports_done ..

/-- A memory-format operation that accesses data can only miss its own address. -/
theorem MemoryOp.run_reports {op : MemoryOp} {size : AccessSize}
    (hsize : op.dataSize? = some size) (ra rb : Reg) (displacement : Int16) :
    (op.run pc ra rb displacement m).Reports
      (m.cpu.readInt rb + displacementWord displacement) size := by
  cases op with
  | load =>
    cases hsize
    exact runLoad_reports ..
  | loadLocked width =>
    cases hsize
    exact reports_loadThen fun _ => reports_done ..
  | store =>
    cases hsize
    exact reports_storeInt _
  | storeConditional width =>
    cases hsize
    exact runStoreConditional_reports ..
  | loadUnaligned =>
    cases hsize
    exact (runLoad_reports ..).of_isAligned (isAligned_alignDown _) _
  | storeUnaligned =>
    cases hsize
    exact (reports_storeInt _).of_isAligned (isAligned_alignDown _) _
  | floatLoad precision =>
    cases hsize
    refine reports_requireFp ?_
    split
    · exact reports_done ..
    · cases precision <;> exact reports_loadThen fun _ => reports_done ..
  | floatStore precision =>
    cases hsize
    cases precision <;> exact reports_requireFp (reports_storeInt _)
  | _ => cases hsize

theorem OperateOp.run_reports (op : OperateOp) (ra : Reg) (rb : Operand) (rc : Reg)
    (address : UInt64) (size : AccessSize) :
    (op.run pc ra rb rc m).Reports address size := by
  cases op with
  | arithChecked | multiplyChecked => exact reports_returnChecked ..
  | moveIf condition =>
    simp only [run]
    split <;> exact reports_done ..
  | moveFromFloat precision => cases precision <;> exact reports_requireFp (reports_done ..)
  | _ => exact reports_done ..

theorem FloatOp.runEnabled_reports (op : FloatOp) (fa fb : Reg) (function : Nat) (fc : Reg)
    (address : UInt64) (size : AccessSize) :
    (op.runEnabled pc fa fb function fc m).Reports address size := by
  cases op with
  | moveFromInt precision => cases precision <;> exact reports_done ..
  | arith op precision =>
    cases op with
    | div =>
      simp only [runEnabled]
      split
      · exact reports_raise rfl
      · exact reports_done ..
    | _ => exact reports_done ..
  | quadToLong =>
    simp only [runEnabled]
    split
    · exact ⟨rfl, fun hkind => by cases hkind⟩
    · exact reports_done ..
  | moveIf condition =>
    simp only [runEnabled]
    split <;> exact reports_done ..
  | _ => exact reports_done ..

theorem BranchOp.run_reports (op : BranchOp) (ra : Reg) (displacement : Int)
    (address : UInt64) (size : AccessSize) :
    (op.run pc ra displacement m).Reports address size := by
  cases op with
  | onFloat condition => exact reports_requireFp (reports_done ..)
  | _ => exact reports_done ..

theorem PalOp.run_reports (op : PalOp) (address : UInt64) (size : AccessSize) :
    (op.run pc m).Reports address size := by
  cases op with
  | halt =>
    simp only [run]
    split
    · exact reports_done ..
    · exact reports_raise rfl
  | breakpoint | systemCall | generateTrap => exact reports_raise rfl
  | _ => exact reports_done ..

/-- An operation without data can miss no address. -/
theorem Operation.run_reports_of_none {op : Operation} {i : Instruction} (hfits : op.Fits i)
    (hsize : op.dataSize? = none) (address : UInt64) (size : AccessSize) :
    (op.run pc i m).Reports address size := by
  cases hfits with
  | operate op opcode ra rb function rc => exact op.run_reports ra rb rc address size
  | float op opcode fa fb function fc =>
    exact reports_requireFp (op.runEnabled_reports fa fb function fc address size)
  | memory op opcode ra rb displacement =>
    cases op with
    | privileged => exact reports_raise rfl
    | loadAddress | loadAddressHigh | jump | barrier | readCycles | exchangeFlag =>
      exact reports_done ..
    | _ => cases hsize
  | branch op opcode ra displacement => exact op.run_reports ra displacement address size
  | pal op function => exact op.run_reports address size

end Misaligned

section Words

variable {word : UInt32} {pc : UInt64} {m m' : Machine} {trap : Trap}

/-- **A trap for a misaligned access comes from the data of a load or a store.** -/
theorem execute_unaligned (h : execute word pc m = .trapped m' trap)
    (hkind : trap.kind = .unalignedAccess) :
    ∃ address, trap.address = some address ∧
      (Instruction.decode word).Misaligns m.cpu address := by
  cases hop : Operation.ofInstruction? (.decode word) with
  | none =>
    rw [execute_of_none hop] at h
    cases h
    cases hkind
  | some op =>
    rw [execute_of_operation hop] at h
    have hfits := Operation.fits_decode hop
    have hdata := Operation.dataSize?_eq hop
    cases hsize : op.dataSize? with
    | none =>
      exact absurd hkind
        (Outcome.kind_ne_unalignedAccess (Operation.run_reports_of_none hfits hsize) h)
    | some size =>
      rw [hsize] at hdata
      generalize Instruction.decode word = i at hfits hdata h ⊢
      cases hfits with
      | memory op opcode ra rb displacement =>
        have hreports : (op.run pc ra rb displacement m).Reports _ size :=
          MemoryOp.run_reports hsize ra rb displacement
        rw [show op.run pc ra rb displacement m = .trapped m' trap from h] at hreports
        obtain ⟨haddress, ha⟩ := hreports.2 hkind
        refine ⟨_, haddress, opcode, ra, rb, displacement, size, rfl, hdata.symm, rfl, ?_⟩
        rw [Nat.dvd_iff_mod_eq_zero]
        exact of_decide_eq_false ha
      | _ => cases hsize

/-- **A trap has a data address exactly if its kind asks for one.** -/
theorem execute_hasAddress (h : execute word pc m = .trapped m' trap) :
    trap.address.isSome = trap.kind.hasAddress := by
  cases hop : Operation.ofInstruction? (.decode word) with
  | none =>
    rw [execute_of_none hop] at h
    cases h
    rfl
  | some op =>
    rw [execute_of_operation hop] at h
    have hreports : ∃ address size, (op.run pc (.decode word) m).Reports address size := by
      have hfits := Operation.fits_decode hop
      generalize Instruction.decode word = i at hfits
      cases hsize : op.dataSize? with
      | none => exact ⟨0, .byte, Operation.run_reports_of_none hfits hsize 0 .byte⟩
      | some size =>
        cases hfits with
        | memory op opcode ra rb displacement =>
          exact ⟨_, size, MemoryOp.run_reports hsize ra rb displacement⟩
        | _ => cases hsize
    obtain ⟨address, size, hreports⟩ := hreports
    rw [h] at hreports
    exact hreports.1

end Words

end AlphaMachine
