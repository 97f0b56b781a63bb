import AlphaMachine.Proofs.Block.Accesses
import AlphaMachine.Proofs.Engine.Steps
import AlphaMachine.Proofs.Exec.WellFormed

/-!
# The pending slot

Compiled code reports a trap by leaving it in the pending slot of the processor; whoever runs the
block takes it out again (`Block.leave`, `Block.collect`).  If the slot was empty, as it is on a
well-formed machine, this is what running the block amounts to (`Block.collect_leave`,
`Block.run_eq_collect`), and the machine is well-formed again
(`Block.wellFormed_runWords`): nothing about the trap is lost on the way, because a trap has a data
address exactly if its kind asks for one.
-/

namespace AlphaMachine

/-! ### Runs of blocks -/

namespace Block

variable {start pc : UInt64} {word : UInt32} {words : List UInt32} {m m' : Machine} {trap : Trap}

theorem wellFormed_runWord (h : m.WellFormed) (start pc : UInt64) (word : UInt32) :
    (runWord start pc word m).machine.WellFormed := by
  rw [Engine.runWord_eq_map]
  have hexecute := execute_wellFormed (h.atCycles (m.cpu.cycles + (pc - start) / 4)) word pc
  generalize execute word pc (m.atCycles (m.cpu.cycles + (pc - start) / 4)) = o at hexecute ⊢
  cases o with
  | done m' flow => exact hexecute.atCycles _
  | trapped m' trap => exact hexecute.atCycles _

/-- A block leaves a well-formed machine, wherever it is left. -/
theorem wellFormed_runWords (h : m.WellFormed) (start pc : UInt64) (words : List UInt32) :
    (runWords start pc words m).1.WellFormed := by
  induction words generalizing pc m with
  | nil => exact h
  | cons word rest ih =>
    have hword := wellFormed_runWord h start pc word
    unfold runWords
    split
    · next m' trap htrap =>
      rw [htrap] at hword
      exact hword
    · next m' hnext =>
      rw [hnext] at hword
      exact ih hword (pc + 4)
    · next m' flow _ hleave =>
      rw [hleave] at hword
      exact hword

theorem hasAddress_of_runWords (h : runWords start pc words m = (m', .error trap)) :
    trap.address.isSome = trap.kind.hasAddress := by
  obtain ⟨pc', word, m₁, -, htrap⟩ := exists_reaches_of_trap h
  rw [Engine.runWord_eq_map, Outcome.map_eq_trapped] at htrap
  obtain ⟨m₂, hexecute, -⟩ := htrap
  exact execute_hasAddress hexecute

/-! ### The pending slot -/

/-- What the code of a block leaves behind: a trap in the pending slot, the address in the return
register, and whether code has to be discarded. -/
def leave (b : Block) (m : Machine) : Machine × UInt64 × Bool :=
  match runWords b.start b.start b.words m with
  | (m, .ok (next, flush)) => (m, next, flush)
  | (m, .error trap) => (pend m trap, trap.pc, false)

/-- Take the trap out of the pending slot, if the code has left one. -/
def collect (b : Block) : Machine × UInt64 × Bool → Machine × BlockExit
  | (m, next, flush) =>
    match m.cpu.takePendingTrap next with
    | (none, cpu) => ({ m with cpu }, ⟨next, b.size.toUInt64, none, flush⟩)
    | (some trap, cpu) =>
      ({ m with cpu }, ⟨trap.pc, (trap.pc - b.start) / 4, some trap, flush⟩)

end Block

theorem TrapKind.ofCode?_code (kind : TrapKind) : ofCode? kind.code = some kind := by
  cases kind <;> decide

namespace Processor

variable {cpu : Processor}

theorem takePendingTrap_of_empty (h : cpu.pendingTrap = 0) (pc : UInt64) :
    cpu.takePendingTrap pc = (none, cpu) := by
  simp only [takePendingTrap, pendingTrap?, h, if_true]

/-- The processor with an empty pending slot. -/
def emptied (cpu : Processor) : Processor := { cpu with pendingTrap := 0, pendingTrapAddr := 0 }

/-- What is found of a trap that was left in the pending slot: its kind says whether there is a data
address. -/
theorem takePendingTrap_setPendingTrap_eq (cpu : Processor) (trap : Trap) (pc : UInt64) :
    (cpu.setPendingTrap trap).takePendingTrap pc =
      (some ⟨trap.kind, pc, if trap.kind.hasAddress then some (trap.address.getD 0) else none⟩,
        cpu.emptied) := by
  have hne : (cpu.setPendingTrap trap).pendingTrap ≠ 0 := Block.code_ne_zero trap.kind
  have hkind : TrapKind.ofCode? (cpu.setPendingTrap trap).pendingTrap = some trap.kind :=
    trap.kind.ofCode?_code
  rw [takePendingTrap, pendingTrap?, if_neg hne, hkind]
  rfl

/-- A trap that was left in an empty pending slot is found there, and the slot is empty again. -/
theorem takePendingTrap_setPendingTrap (h : cpu.pendingTrap = 0) (haddr : cpu.pendingTrapAddr = 0)
    {trap : Trap} (htrap : trap.address.isSome = trap.kind.hasAddress) :
    (cpu.setPendingTrap trap).takePendingTrap trap.pc = (some trap, cpu) := by
  rw [takePendingTrap_setPendingTrap_eq, ← htrap]
  obtain ⟨kind, pc, address⟩ := trap
  obtain ⟨⟩ := cpu
  cases h
  cases haddr
  cases address <;> rfl

end Processor

/-- What the code of a block leaves behind is found, if the pending slot was empty. -/
theorem Block.collect_leave {m : Machine} (h : m.cpu.pendingTrap = 0)
    (haddr : m.cpu.pendingTrapAddr = 0) (b : Block) : b.collect (b.leave m) = b.run m := by
  rcases hrun : runWords b.start b.start b.words m with ⟨m', trap | ⟨next, flush⟩⟩
  · have hkeeps := keeps_runWords hrun
    have htake := Processor.takePendingTrap_setPendingTrap (hkeeps.pendingTrap.trans h)
      (hkeeps.pendingTrapAddr.trans haddr) (hasAddress_of_runWords hrun)
    simp only [run, leave, hrun, collect, pend, htake]
  · have hkeeps := keeps_runWords hrun
    have htake := Processor.takePendingTrap_of_empty (hkeeps.pendingTrap.trans h) next
    simp only [run, leave, hrun, collect, htake]

/-- **Traps of compiled blocks go through the pending slot**, which is empty before and after. -/
theorem Block.run_eq_collect {m : Machine} (h : m.WellFormed) (b : Block) :
    b.run m = b.collect (b.leave m) :=
  (collect_leave h.pendingTrap h.pendingTrapAddr b).symm

end AlphaMachine
