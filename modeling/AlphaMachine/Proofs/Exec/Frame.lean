import AlphaMachine.Exec.Execute
import AlphaMachine.Proofs.Isa.Dispatch

/-!
# What an instruction leaves alone

Executing an instruction changes registers, memory contents and a few flags, and nothing else.

* `execute_keeps` : the program counter, the cycle count, the exception address, the mode, the
  floating enable, the pending slot and the extent of memory stay as they are, and a trap names
  the address of the instruction;
* `execute_straight` : an instruction that does not end a block goes on with the following one
  and does not halt the machine;
* `execute_atPc` : the program counter of the processor plays no part: the address of the
  instruction is an argument of its own;
* `Operation.map_atCycles_run` : nor does the cycle count, but for the operation that reads it;
* `flow_eq_flush_iff` : compiled code is discarded by the instruction memory barrier
  alone.
-/

namespace AlphaMachine

/-! ### Machines and outcomes -/

namespace Machine

/-- What no instruction changes. -/
structure Keeps (m m' : Machine) : Prop where
  /-- The program counter is moved by the engine. -/
  pc : m'.cpu.pc = m.cpu.pc
  /-- Retired instructions are counted by the engine. -/
  cycles : m'.cpu.cycles = m.cpu.cycles
  /-- The exception address is set on delivery. -/
  excAddr : m'.cpu.excAddr = m.cpu.excAddr
  /-- The mode is set on delivery. -/
  mode : m'.cpu.mode = m.cpu.mode
  /-- No instruction enables or disables floating instructions. -/
  fpEnabled : m'.cpu.fpEnabled = m.cpu.fpEnabled
  /-- The pending slot belongs to compiled code. -/
  pendingTrap : m'.cpu.pendingTrap = m.cpu.pendingTrap
  /-- The pending slot belongs to compiled code. -/
  pendingTrapAddr : m'.cpu.pendingTrapAddr = m.cpu.pendingTrapAddr
  /-- The mapped range does not move. -/
  base : m'.mem.base = m.mem.base
  /-- The mapped range does not grow or shrink. -/
  size : m'.mem.size = m.mem.size

/-- The machine with another program counter and another cycle count. -/
def withCounters (m : Machine) (pc cycles : UInt64) : Machine :=
  { m with cpu.pc := pc, cpu.cycles := cycles }

/-- The machine with another program counter. -/
def atPc (m : Machine) (pc : UInt64) : Machine := { m with cpu.pc := pc }

/-- The machine with another cycle count. -/
def atCycles (m : Machine) (cycles : UInt64) : Machine := { m with cpu.cycles := cycles }

/-- What no instruction within a block changes. -/
structure KeepsOn (m m' : Machine) : Prop extends m.Keeps m' where
  /-- The machine is not halted. -/
  halted : m'.cpu.halted = m.cpu.halted

theorem KeepsOn.refl (m : Machine) : m.KeepsOn m :=
  ⟨⟨rfl, rfl, rfl, rfl, rfl, rfl, rfl, rfl, rfl⟩, rfl⟩

theorem keepsOn_writeInt (m : Machine) (r : Reg) (value : UInt64) :
    m.KeepsOn (m.writeInt r value) :=
  ⟨⟨rfl, rfl, rfl, rfl, rfl, rfl, rfl, rfl, rfl⟩, rfl⟩

theorem keepsOn_writeFp (m : Machine) (r : Reg) (value : UInt64) :
    m.KeepsOn (m.writeFp r value) :=
  ⟨⟨rfl, rfl, rfl, rfl, rfl, rfl, rfl, rfl, rfl⟩, rfl⟩

theorem keepsOn_clearLock (m : Machine) (address : UInt64) {mem : Memory}
    (hb : mem.base = m.mem.base) (hs : mem.size = m.mem.size) :
    m.KeepsOn ⟨m.cpu.clearLockOnStore address, mem⟩ := by
  unfold Processor.clearLockOnStore
  split <;> exact ⟨⟨rfl, rfl, rfl, rfl, rfl, rfl, rfl, hb, hs⟩, rfl⟩

end Machine

@[simp]
theorem Memory.size_write (mem : Memory) (address : UInt64) (size : AccessSize) (value : UInt64) :
    (mem.write address size value).size = mem.size := by
  simp [Memory.write, Memory.size]

@[simp]
theorem Trap.pc_ofFault (fault : MemoryFault) (pc : UInt64) : (Trap.ofFault fault pc).pc = pc := by
  cases fault <;> rfl

namespace Outcome

/-- Change the machine of an outcome. -/
def map (f : Machine → Machine) : Outcome → Outcome
  | .done m flow => .done (f m) flow
  | .trapped m trap => .trapped (f m) trap

theorem map_ite (f : Machine → Machine) (c : Prop) [Decidable c] (o o' : Outcome) :
    (if c then o else o').map f = if c then o.map f else o'.map f := apply_ite ..

theorem map_id (o : Outcome) : o.map id = o := by
  cases o <;> rfl

theorem map_map (f g : Machine → Machine) (o : Outcome) : (o.map f).map g = o.map (g ∘ f) := by
  cases o <;> rfl

theorem map_eq_done {o : Outcome} {f : Machine → Machine} {m' : Machine} {flow : Flow} :
    o.map f = .done m' flow ↔ ∃ m, o = .done m flow ∧ f m = m' := by
  cases o <;> grind [map]

theorem map_eq_trapped {o : Outcome} {f : Machine → Machine} {m' : Machine} {trap : Trap} :
    o.map f = .trapped m' trap ↔ ∃ m, o = .trapped m trap ∧ f m = m' := by
  cases o <;> grind [map]

/-- The outcome of an instruction at `pc` keeps what no instruction changes, and a trap does not
halt the machine. -/
def Keeps (pc : UInt64) (m : Machine) : Outcome → Prop
  | .done m' _ => m.Keeps m'
  | .trapped m' trap => m.KeepsOn m' ∧ trap.pc = pc

/-- The outcome of an instruction at `pc` after which execution goes on with the following
one. -/
def Straight (pc : UInt64) (m : Machine) : Outcome → Prop
  | .done m' flow => m.KeepsOn m' ∧ flow = .next
  | .trapped m' trap => m.KeepsOn m' ∧ trap.pc = pc

theorem Straight.keeps {pc : UInt64} {m : Machine} {o : Outcome} (h : o.Straight pc m) :
    o.Keeps pc m := by
  cases o with
  | done m' flow => exact h.1.toKeeps
  | trapped m' trap => exact h

theorem Keeps.map_congr {pc : UInt64} {m : Machine} {o : Outcome} {f g : Machine → Machine}
    (h : o.Keeps pc m) (hfg : ∀ m', m.Keeps m' → f m' = g m') : o.map f = o.map g := by
  cases o with
  | done m' flow => exact congrArg (Outcome.done · flow) (hfg m' h)
  | trapped m' trap => exact congrArg (Outcome.trapped · trap) (hfg m' h.1.toKeeps)

end Outcome

/-! ### Common outcomes -/

section Common

open Machine

variable {m : Machine} {pc : UInt64}

theorem straight_skip : m.skip.Straight pc m := ⟨KeepsOn.refl m, rfl⟩

theorem straight_returnInt {r : Reg} {value : UInt64} : (m.returnInt r value).Straight pc m :=
  ⟨keepsOn_writeInt m r value, rfl⟩

theorem straight_returnFp {r : Reg} {value : UInt64} : (m.returnFp r value).Straight pc m :=
  ⟨keepsOn_writeFp m r value, rfl⟩

theorem straight_raise {kind : TrapKind} : (m.raise kind pc).Straight pc m :=
  ⟨KeepsOn.refl m, rfl⟩

theorem straight_returnChecked {r : Reg} {value : Option UInt64} :
    (m.returnChecked pc r value).Straight pc m := by
  cases value with
  | none => exact straight_raise
  | some value => exact straight_returnInt

theorem straight_requireFp {k : Outcome} (h : k.Straight pc m) :
    (m.requireFp pc k).Straight pc m := by
  unfold requireFp
  split
  · exact h
  · exact straight_raise

theorem straight_loadThen {address : UInt64} {size : AccessSize} {k : UInt64 → Outcome}
    (h : ∀ value, (k value).Straight pc m) : (m.loadThen pc address size k).Straight pc m := by
  unfold loadThen
  split
  · exact h _
  · exact ⟨KeepsOn.refl m, Trap.pc_ofFault ..⟩

theorem straight_storeInt {address : UInt64} {size : AccessSize} {value : UInt64} :
    (m.storeInt pc address size value).Straight pc m := by
  unfold storeInt
  split
  · exact ⟨KeepsOn.refl m, Trap.pc_ofFault ..⟩
  · exact ⟨keepsOn_clearLock m address rfl (Memory.size_write ..), rfl⟩

variable {x c : UInt64}

theorem returnChecked_withCounters (r : Reg) (value : Option UInt64) :
    (m.withCounters x c).returnChecked pc r value =
      (m.returnChecked pc r value).map (·.withCounters x c) := by
  cases value <;> rfl

theorem requireFp_withCounters {k k' : Outcome} (h : k' = k.map (·.withCounters x c)) :
    (m.withCounters x c).requireFp pc k' = (m.requireFp pc k).map (·.withCounters x c) := by
  subst h
  simp only [requireFp, Outcome.map_ite]
  rfl

theorem loadThen_withCounters {address : UInt64} {size : AccessSize} {k k' : UInt64 → Outcome}
    (h : ∀ value, k' value = (k value).map (·.withCounters x c)) :
    (m.withCounters x c).loadThen pc address size k' =
      (m.loadThen pc address size k).map (·.withCounters x c) := by
  simp only [loadThen, withCounters]
  split
  · exact h _
  · rfl

theorem storeInt_withCounters (address : UInt64) (size : AccessSize) (value : UInt64) :
    (m.withCounters x c).storeInt pc address size value =
      (m.storeInt pc address size value).map (·.withCounters x c) := by
  simp only [storeInt, withCounters]
  split
  · rfl
  · simp only [Processor.clearLockOnStore, Outcome.map]
    split <;> rfl

end Common

/-! ### Operations -/

section Families

open Machine

variable {m : Machine} {pc : UInt64}

theorem OperateOp.run_straight (op : OperateOp) (ra : Reg) (rb : Operand) (rc : Reg) :
    (op.run pc ra rb rc m).Straight pc m := by
  cases op with
  | arithChecked | multiplyChecked => exact straight_returnChecked
  | moveIf condition =>
    simp only [run]
    split
    · exact straight_returnInt
    · exact straight_skip
  | moveFromFloat precision => cases precision <;> exact straight_requireFp straight_returnInt
  | _ => exact straight_returnInt

theorem FloatOp.runEnabled_straight (op : FloatOp) (fa fb : Reg) (function : Nat) (fc : Reg) :
    (op.runEnabled pc fa fb function fc m).Straight pc m := by
  cases op with
  | moveFromInt precision => cases precision <;> exact straight_returnFp
  | arith op precision =>
    cases op with
    | div =>
      simp only [runEnabled]
      split
      · exact straight_raise
      · exact straight_returnFp
    | _ => exact straight_returnFp
  | quadToLong =>
    simp only [runEnabled]
    split
    · exact ⟨⟨⟨rfl, rfl, rfl, rfl, rfl, rfl, rfl, rfl, rfl⟩, rfl⟩, rfl⟩
    · exact straight_returnFp
  | writeControl => exact ⟨⟨⟨rfl, rfl, rfl, rfl, rfl, rfl, rfl, rfl, rfl⟩, rfl⟩, rfl⟩
  | moveIf condition =>
    simp only [runEnabled]
    split
    · exact straight_returnFp
    · exact straight_skip
  | _ => exact straight_returnFp

theorem FloatOp.run_straight (op : FloatOp) (fa fb : Reg) (function : Nat) (fc : Reg) :
    (op.run pc fa fb function fc m).Straight pc m :=
  straight_requireFp (op.runEnabled_straight fa fb function fc)

theorem MemoryOp.runLoad_straight (size : AccessSize) (address : UInt64) (ra : Reg) :
    (runLoad size pc address ra m).Straight pc m := by
  unfold runLoad
  split
  · exact straight_skip
  · exact straight_loadThen fun _ => straight_returnInt

theorem MemoryOp.runStoreConditional_straight (size : AccessSize) (address : UInt64) (ra : Reg) :
    (runStoreConditional size pc address ra m).Straight pc m := by
  simp only [runStoreConditional]
  split
  · split
    · exact ⟨KeepsOn.refl m, Trap.pc_ofFault ..⟩
    · exact ⟨⟨⟨rfl, rfl, rfl, rfl, rfl, rfl, rfl, rfl, Memory.size_write ..⟩, rfl⟩, rfl⟩
  · exact ⟨⟨⟨rfl, rfl, rfl, rfl, rfl, rfl, rfl, rfl, rfl⟩, rfl⟩, rfl⟩

theorem MemoryOp.run_straight {op : MemoryOp} (hj : op ≠ .jump) (ra rb : Reg)
    (displacement : Int16) : (op.run pc ra rb displacement m).Straight pc m := by
  cases op with
  | jump => exact absurd rfl hj
  | load | loadUnaligned => exact runLoad_straight ..
  | loadLocked width =>
    exact straight_loadThen fun _ => ⟨⟨⟨rfl, rfl, rfl, rfl, rfl, rfl, rfl, rfl, rfl⟩, rfl⟩, rfl⟩
  | store | storeUnaligned => exact straight_storeInt
  | storeConditional width => exact runStoreConditional_straight ..
  | floatLoad precision =>
    refine straight_requireFp ?_
    split
    · exact straight_skip
    · cases precision <;> exact straight_loadThen fun _ => straight_returnFp
  | floatStore precision => cases precision <;> exact straight_requireFp straight_storeInt
  | barrier => exact straight_skip
  | exchangeFlag value => exact ⟨⟨⟨rfl, rfl, rfl, rfl, rfl, rfl, rfl, rfl, rfl⟩, rfl⟩, rfl⟩
  | privileged => exact straight_raise
  | _ => exact straight_returnInt

theorem MemoryOp.run_keeps (op : MemoryOp) (ra rb : Reg) (displacement : Int16) :
    (op.run pc ra rb displacement m).Keeps pc m := by
  by_cases hj : op = .jump
  · subst hj
    exact (keepsOn_writeInt m ra _).toKeeps
  · exact (run_straight hj ra rb displacement).keeps

theorem BranchOp.run_keeps (op : BranchOp) (ra : Reg) (displacement : Int) :
    (op.run pc ra displacement m).Keeps pc m := by
  cases op with
  | link => exact (keepsOn_writeInt m ra _).toKeeps
  | onInt condition => exact (KeepsOn.refl m).toKeeps
  | onFloat condition =>
    simp only [run, requireFp]
    split
    · exact (KeepsOn.refl m).toKeeps
    · exact straight_raise.keeps

theorem PalOp.run_keeps (op : PalOp) : (op.run pc m).Keeps pc m := by
  cases op with
  | halt =>
    simp only [run]
    split
    · exact ⟨rfl, rfl, rfl, rfl, rfl, rfl, rfl, rfl, rfl⟩
    · exact straight_raise.keeps
  | flushCode => exact (KeepsOn.refl m).toKeeps
  | readUnique => exact (keepsOn_writeInt m _ _).toKeeps
  | writeUnique => exact ⟨rfl, rfl, rfl, rfl, rfl, rfl, rfl, rfl, rfl⟩
  | _ => exact straight_raise.keeps

theorem Operation.run_keeps (op : Operation) (i : Instruction) :
    (op.run pc i m).Keeps pc m := by
  unfold Operation.run
  split
  · exact (OperateOp.run_straight ..).keeps
  · exact (FloatOp.run_straight ..).keeps
  · exact MemoryOp.run_keeps ..
  · exact BranchOp.run_keeps ..
  · exact PalOp.run_keeps ..
  · exact straight_raise.keeps

theorem Operation.run_straight {op : Operation} (h : op.leavesLine = false) (i : Instruction) :
    (op.run pc i m).Straight pc m := by
  unfold Operation.run
  split
  · exact OperateOp.run_straight ..
  · exact FloatOp.run_straight ..
  · refine MemoryOp.run_straight ?_ ..
    rintro rfl
    cases h
  · cases h
  · cases h
  · exact straight_raise

/-! ### Discarding compiled code -/

theorem Outcome.Straight.ne_flush {o : Outcome} (h : o.Straight pc m) (m' : Machine) :
    o ≠ .done m' .flush := by
  rintro rfl
  cases h.2

theorem BranchOp.run_ne_flush (op : BranchOp) (ra : Reg) (displacement : Int) (m' : Machine) :
    op.run pc ra displacement m ≠ .done m' .flush := by
  intro h
  cases op with
  | link => simp [run] at h
  | onInt condition =>
    simp only [run, Outcome.done.injEq] at h
    split at h <;> simp at h
  | onFloat condition =>
    simp only [run, requireFp] at h
    split at h
    · simp only [Outcome.done.injEq] at h
      split at h <;> simp at h
    · cases h

theorem PalOp.eq_flushCode {op : PalOp} {m' : Machine} (h : op.run pc m = .done m' .flush) :
    op = .flushCode := by
  cases op with
  | flushCode => rfl
  | halt =>
    simp only [run] at h
    split at h <;> cases h
  | _ => cases h

theorem Operation.eq_flushCode {op : Operation} {i : Instruction} {m' : Machine}
    (h : op.run pc i m = .done m' .flush) :
    op = .pal .flushCode ∧ ∃ function, i = .pal function := by
  unfold Operation.run at h
  split at h
  · exact absurd h ((OperateOp.run_straight ..).ne_flush m')
  · exact absurd h ((FloatOp.run_straight ..).ne_flush m')
  · next op _ ra rb displacement =>
    by_cases hj : op = .jump
    · subst hj
      cases h
    · exact absurd h ((MemoryOp.run_straight hj ..).ne_flush m')
  · exact absurd h (BranchOp.run_ne_flush _ _ _ m')
  · next op function => exact ⟨by rw [PalOp.eq_flushCode h], function, rfl⟩
  · cases h

/-! ### The counters play no part -/

variable (x c : UInt64)

theorem OperateOp.run_withCounters (op : OperateOp) (ra : Reg) (rb : Operand) (rc : Reg) :
    op.run pc ra rb rc (m.withCounters x c) = (op.run pc ra rb rc m).map (·.withCounters x c) := by
  have hb : (m.withCounters x c).cpu.readOperand rb = m.cpu.readOperand rb := by cases rb <;> rfl
  cases op with
  | arithChecked op width =>
    simp only [run, hb]
    exact returnChecked_withCounters ..
  | multiplyChecked width =>
    simp only [run, hb]
    exact returnChecked_withCounters ..
  | moveIf condition =>
    simp only [run, hb, Outcome.map_ite]
    rfl
  | moveFromFloat precision => cases precision <;> exact requireFp_withCounters rfl
  | _ =>
    simp only [run, hb]
    rfl

theorem FloatOp.runEnabled_withCounters (op : FloatOp) (fa fb : Reg) (function : Nat) (fc : Reg) :
    op.runEnabled pc fa fb function fc (m.withCounters x c) =
      (op.runEnabled pc fa fb function fc m).map (·.withCounters x c) := by
  cases op with
  | moveFromInt precision => cases precision <;> rfl
  | arith op precision =>
    cases op with
    | div =>
      simp only [runEnabled, Outcome.map_ite]
      rfl
    | _ => rfl
  | quadToLong =>
    simp only [runEnabled, Outcome.map_ite]
    rfl
  | moveIf condition =>
    simp only [runEnabled, Outcome.map_ite]
    rfl
  | _ => rfl

theorem MemoryOp.runLoad_withCounters (size : AccessSize) (address : UInt64) (ra : Reg) :
    runLoad size pc address ra (m.withCounters x c) =
      (runLoad size pc address ra m).map (·.withCounters x c) := by
  unfold runLoad
  split
  · rfl
  · exact loadThen_withCounters fun _ => rfl

theorem MemoryOp.runStoreConditional_withCounters (size : AccessSize) (address : UInt64)
    (ra : Reg) :
    runStoreConditional size pc address ra (m.withCounters x c) =
      (runStoreConditional size pc address ra m).map (·.withCounters x c) := by
  simp only [runStoreConditional, Outcome.map_ite]
  refine ite_congr rfl (fun _ => ?_) fun _ => rfl
  simp only [withCounters]
  split <;> rfl

theorem MemoryOp.run_withCounters {op : MemoryOp} (hop : op ≠ .readCycles) (ra rb : Reg)
    (displacement : Int16) :
    op.run pc ra rb displacement (m.withCounters x c) =
      (op.run pc ra rb displacement m).map (·.withCounters x c) := by
  cases op with
  | load | loadUnaligned => exact runLoad_withCounters ..
  | loadLocked width => exact loadThen_withCounters fun _ => rfl
  | store | storeUnaligned => exact storeInt_withCounters ..
  | storeConditional width => exact runStoreConditional_withCounters ..
  | floatLoad precision =>
    refine requireFp_withCounters ?_
    split
    · rfl
    · cases precision <;> exact loadThen_withCounters fun _ => rfl
  | floatStore precision =>
    cases precision <;> exact requireFp_withCounters (storeInt_withCounters ..)
  | readCycles => exact absurd rfl hop
  | _ => rfl

theorem BranchOp.run_withCounters (op : BranchOp) (ra : Reg) (displacement : Int) :
    op.run pc ra displacement (m.withCounters x c) =
      (op.run pc ra displacement m).map (·.withCounters x c) := by
  cases op with
  | onFloat condition => exact requireFp_withCounters rfl
  | _ => rfl

theorem PalOp.run_withCounters (op : PalOp) :
    op.run pc (m.withCounters x c) = (op.run pc m).map (·.withCounters x c) := by
  cases op with
  | halt =>
    simp only [run, Outcome.map_ite]
    rfl
  | _ => rfl

/-- The counters play no part in any operation but the one that reads the cycle count. -/
theorem Operation.run_withCounters {op : Operation} (hop : op ≠ .memory .readCycles)
    (i : Instruction) :
    op.run pc i (m.withCounters x c) = (op.run pc i m).map (·.withCounters x c) := by
  unfold Operation.run
  split
  · exact OperateOp.run_withCounters ..
  · exact requireFp_withCounters (FloatOp.runEnabled_withCounters ..)
  · exact MemoryOp.run_withCounters x c (fun h => hop (congrArg _ h)) ..
  · exact BranchOp.run_withCounters ..
  · exact PalOp.run_withCounters ..
  · rfl

theorem Operation.run_atPc (op : Operation) (i : Instruction) :
    op.run pc i (m.atPc x) = (op.run pc i m).map (·.atPc x) := by
  by_cases hop : op = .memory .readCycles
  · subst hop
    cases i <;> rfl
  · refine (run_withCounters x m.cpu.cycles hop i).trans ((run_keeps op i).map_congr ?_)
    intro m' hm'
    rw [← hm'.cycles]
    rfl

/-- Changing the cycle count for an instruction and changing it back. -/
theorem Operation.map_atCycles_run {op : Operation} (hop : op ≠ .memory .readCycles)
    (i : Instruction) :
    (op.run pc i (m.atCycles c)).map (·.atCycles m.cpu.cycles) = op.run pc i m := by
  have hrun : op.run pc i (m.atCycles c) = _ := run_withCounters m.cpu.pc c hop i
  rw [hrun, Outcome.map_map]
  refine ((run_keeps op i).map_congr ?_).trans (Outcome.map_id _)
  intro m' hm'
  change { m' with cpu.pc := m.cpu.pc, cpu.cycles := m.cpu.cycles } = m'
  rw [← hm'.pc, ← hm'.cycles]

end Families

/-! ### Words -/

/-- **No instruction changes what the engine keeps, and a trap names its instruction.** -/
theorem execute_keeps (word : UInt32) (pc : UInt64) (m : Machine) :
    (execute word pc m).Keeps pc m := by
  unfold execute Instruction.execute
  split
  · exact Operation.run_keeps ..
  · exact straight_raise.keeps

/-- **A word that does not end a block goes on with the following one.** -/
theorem execute_straight {word : UInt32} (h : (Instruction.decode word).endsBlock = false)
    (pc : UInt64) (m : Machine) : (execute word pc m).Straight pc m := by
  unfold execute Instruction.execute
  split
  · next op hop => exact Operation.run_straight ((Operation.leavesLine_eq hop).trans h) _
  · exact straight_raise

/-- **The program counter of the processor plays no part in the execution of a word.** -/
theorem execute_atPc (word : UInt32) (pc : UInt64) (m : Machine) (x : UInt64) :
    execute word pc (m.atPc x) = (execute word pc m).map (·.atPc x) := by
  unfold execute Instruction.execute
  split
  · exact Operation.run_atPc ..
  · rfl

/-- The instruction memory barrier does nothing else. -/
theorem execute_barrier {word : UInt32}
    (hd : Instruction.decode word = .pal Operation.barrierFunction) (pc : UInt64) (m : Machine) :
    execute word pc m = .done m .flush := by
  have hop : Operation.ofInstruction? (.decode word) = some (.pal .flushCode) := by
    rw [hd]
    exact Operation.ofInstruction?_barrier
  rw [execute_of_operation hop, hd]
  rfl

/-- **Compiled code is discarded by the instruction memory barrier alone.** -/
theorem flow_eq_flush_iff {word : UInt32} {pc : UInt64} {m m' : Machine} {flow : Flow}
    (h : execute word pc m = .done m' flow) :
    flow = .flush ↔ Instruction.decode word = .pal Operation.barrierFunction := by
  constructor
  · rintro rfl
    cases hop : Operation.ofInstruction? (.decode word) with
    | none =>
      rw [execute_of_none hop] at h
      cases h
    | some op =>
      rw [execute_of_operation hop] at h
      obtain ⟨rfl, function, hi⟩ := Operation.eq_flushCode h
      rw [hi] at hop ⊢
      rw [Operation.ofInstruction?_eq_flushCode_iff.1 hop]
  · intro hd
    rw [execute_barrier hd] at h
    cases h
    rfl

end AlphaMachine
