import AlphaMachine.Proofs.Block.Acceptance
import AlphaMachine.Proofs.Engine.Bodies
import AlphaMachine.Proofs.Engine.Pending

/-!
# Reported traps

The pending slot has no place for the address of an instruction, nor for the absence of a data
address; whoever takes a trap out of it goes by the kind of the trap.  So exactly those traps get
through the slot that have a data address if and only if their kind is one of a refused access
(`Trap.Addressed`, `Processor.takePendingTrap_eq_iff`).  The traps of instructions and those of
memory faults are of this sort (`Trap.addressed_of_execute`, `Trap.addressed_ofFault`).

With the effect of the code of a block (`Block.leaves_of_compile`), what is found in the slot behind
a compiled block is the trap with which the run of its instructions ends
(`Block.reports_of_compile`).
-/

namespace AlphaMachine

/-! ### Traps -/

/-- The kinds of refused accesses are those that ask for a data address. -/
theorem TrapKind.hasAddress_iff (kind : TrapKind) :
    kind.hasAddress = true ↔ kind = .accessViolation ∨ kind = .unalignedAccess := by
  cases kind <;> decide

/-- A trap has a data address exactly if it is one of a refused access. -/
def Trap.Addressed (trap : Trap) : Prop :=
  trap.address.isSome ↔ trap.kind = .accessViolation ∨ trap.kind = .unalignedAccess

namespace Trap

variable {trap : Trap} {word : UInt32} {pc : UInt64} {m m' : Machine}

theorem addressed_iff : trap.Addressed ↔ trap.address.isSome = trap.kind.hasAddress := by
  rw [Addressed, ← TrapKind.hasAddress_iff, Bool.coe_iff_coe]

theorem addressed_of_execute (h : execute word pc m = .trapped m' trap) : trap.Addressed :=
  addressed_iff.2 (execute_hasAddress h)

theorem addressed_ofFault (fault : MemoryFault) (pc : UInt64) : (ofFault fault pc).Addressed :=
  addressed_iff.2 (isSome_address_ofFault fault pc)

end Trap

/-! ### The slot -/

/-- No trap is pending, and no address of an earlier one is left. -/
structure Processor.SlotEmpty (cpu : Processor) : Prop where
  /-- The code of the trap. -/
  pendingTrap : cpu.pendingTrap = 0
  /-- The data address. -/
  pendingTrapAddr : cpu.pendingTrapAddr = 0

namespace Processor

variable {cpu : Processor}

theorem emptied_eq_iff : cpu.emptied = cpu ↔ cpu.SlotEmpty := by
  constructor
  · intro h
    exact ⟨congrArg pendingTrap h.symm, congrArg pendingTrapAddr h.symm⟩
  · rintro ⟨hpending, haddr⟩
    obtain ⟨⟩ := cpu
    cases hpending
    cases haddr
    rfl

/-- **The traps that get through the pending slot**, whatever was in it. -/
theorem takePendingTrap_eq_iff (cpu : Processor) (trap : Trap) :
    (cpu.setPendingTrap trap).takePendingTrap trap.pc = (some trap, cpu.emptied) ↔
      trap.Addressed := by
  rw [takePendingTrap_setPendingTrap_eq, Trap.addressed_iff]
  obtain ⟨kind, pc, address⟩ := trap
  cases hkind : kind.hasAddress <;> cases address <;> simp

end Processor

/-! ### Compiled blocks -/

namespace Block

/-- The code of the instructions of a block is about to run: the block is linked for its start and
the cycle count of the machine, and nothing has been reported yet. -/
structure Begins (b : Block) (link : Linkage) (s : Host.State) : Prop where
  /-- The block is at its address. -/
  start : link.start = b.start
  /-- The frame has the cycle count of the machine. -/
  cycles : s.guest.cpu.cycles = link.cycles
  /-- The prologue has been executed. -/
  ready : Ready link s
  /-- The pending slot is empty. -/
  slot : s.guest.cpu.SlotEmpty
  /-- Nobody has asked to discard code. -/
  flush : s.flush = false

theorem left_eq_leave (b : Block) (m : Machine) :
    left false (runWords b.start b.start b.words m) = b.leave m := by
  unfold leave
  rcases runWords b.start b.start b.words m with ⟨m', trap | ⟨next, flush⟩⟩
  · rfl
  · simp [left]

theorem run_of_error {b : Block} {m m' : Machine} {trap : Trap}
    (h : runWords b.start b.start b.words m = (m', .error trap)) :
    b.run m = (m', ⟨trap.pc, (trap.pc - b.start) / 4, some trap, false⟩) := by
  simp only [run, h]

/-- **What is found behind a compiled block is the end of the run of its instructions**, with the
same machine, the same trap and the same address. -/
theorem reports_of_compile {start : UInt64} {words : List UInt32} {b : Block}
    (hcompile : compile start words = .ok b) {link : Linkage} {s : Host.State}
    (hs : b.Begins link s) :
    ∃ body left, lowerWords b.start b.words = .ok body ∧
      Leaves link (body ++ fallThrough b.start b.words) s left ∧
        b.collect left = b.run s.guest := by
  obtain ⟨body, hbody, hleaves⟩ := leaves_of_compile hcompile hs.start hs.ready hs.cycles
  rw [hs.flush, left_eq_leave] at hleaves
  exact ⟨body, _, hbody, hleaves, collect_leave hs.slot.pendingTrap hs.slot.pendingTrapAddr b⟩

end Block

/-- **The pending slot loses nothing.**  Every trap that an instruction raises, and every trap of a
memory fault, has a data address exactly if its kind is one of a refused access.  These are the
traps that get through the slot: one that is left in an empty slot and taken out at the address of
its instruction is the same trap, and the processor is as it was.  So a trap that is found behind a
compiled block is the one with which the interpreter's run of the block ends. -/
theorem pending_slot_lossless :
    (∀ word pc m m' trap, execute word pc m = .trapped m' trap → trap.Addressed) ∧
    (∀ fault pc, (Trap.ofFault fault pc).Addressed) ∧
    (∀ trap : Trap, trap.Addressed → ∀ cpu : Processor, cpu.SlotEmpty →
      (cpu.setPendingTrap trap).takePendingTrap trap.pc = (some trap, cpu)) ∧
    ∀ start words b, Block.compile start words = .ok b → ∀ link s, b.Begins link s →
      ∃ body left, Block.lowerWords b.start b.words = .ok body ∧
        Block.Leaves link (body ++ Block.fallThrough b.start b.words) s left ∧
        b.collect left = b.run s.guest := by
  refine ⟨fun _ _ _ _ _ => Trap.addressed_of_execute, Trap.addressed_ofFault, ?_,
    fun _ _ _ hcompile _ _ => Block.reports_of_compile hcompile⟩
  intro trap htrap cpu hempty
  have htake := (cpu.takePendingTrap_eq_iff trap).2 htrap
  rwa [Processor.emptied_eq_iff.2 hempty] at htake

/-- A machine whose register 2 points to the second byte of its memory. -/
def straying : Machine := ⟨(Processor.startingAt 0x10000).writeInt 2 0x1001, .zeroed 0x1000 16⟩

/-- The words ADDQ R1, R2, R3 and LDQ R1, 0(R2): the sum is completed, and the load is refused. -/
theorem pending_slot_lossless_straying :
    (∃ m' trap, execute 0xA4220000 0x10004 straying = .trapped m' trap ∧ trap.Addressed ∧
      (straying.cpu.setPendingTrap trap).takePendingTrap trap.pc = (some trap, straying.cpu)) ∧
    ∃ b body left, Block.compile 0x10000 [0x40220403, 0xA4220000] = .ok b ∧
      Block.lowerWords b.start b.words = .ok body ∧
      Block.Leaves Block.plainLinkage (body ++ Block.fallThrough b.start b.words)
        (Block.inside Block.plainLinkage straying) left ∧
      b.collect left = (straying.writeInt 3 0x1001,
        ⟨0x10004, 1, some ⟨.unalignedAccess, 0x10004, some 0x1001⟩, false⟩) := by
  obtain ⟨hexecute, -, hslot, hblock⟩ := pending_slot_lossless
  have hsum : Operation.ofInstruction? (.decode 0x40220403) =
      some (.operate (.arith .add 0 .quad)) := Block.operation_addition
  have hload : Operation.ofInstruction? (.decode 0xA4220000) = some (.memory (.load .quad)) :=
    Operation.ofInstruction?_of_registered ⟨.ldq, none⟩ rfl (by decide)
  have hempty : straying.cpu.SlotEmpty := ⟨rfl, rfl⟩
  constructor
  · have htrapped : execute 0xA4220000 0x10004 straying =
        .trapped straying ⟨.unalignedAccess, 0x10004, some 0x1001⟩ := by
      rw [execute_of_operation hload]
      rfl
    have haddressed := hexecute _ _ _ _ _ htrapped
    exact ⟨_, _, htrapped, haddressed, hslot _ haddressed _ hempty⟩
  · have hwords : Block.upToEnd [0x40220403, 0xA4220000] = [0x40220403, 0xA4220000] := by decide
    have hhandled : ∀ word ∈ Block.upToEnd [0x40220403, 0xA4220000], Block.handled word = true := by
      simp [hwords, Block.handled, hsum, hload]
    obtain ⟨_, hlower⟩ := Block.exists_lowerWords 0x10000 hhandled
    obtain ⟨object, -, hcompile⟩ := Block.exists_compile_eq (List.cons_ne_nil _ _) hlower
    have hready := Block.ready_inside Block.plainLinkage hempty.pendingTrap
    obtain ⟨body, left, hbody, hleaves, hcollect⟩ :=
      hblock _ _ _ hcompile _ _ ⟨rfl, rfl, hready, hempty, rfl⟩
    have hfirst : Block.runWord 0x10000 0x10000 0x40220403 straying =
        .done (straying.writeInt 3 0x1001) .next := by
      rw [Block.runWord, execute_of_operation hsum]
      rfl
    have hsecond : Block.runWord 0x10000 0x10004 0xA4220000 (straying.writeInt 3 0x1001) =
        .trapped (straying.writeInt 3 0x1001) ⟨.unalignedAccess, 0x10004, some 0x1001⟩ := by
      rw [Block.runWord, execute_of_operation hload]
      rfl
    have hrun : Block.runWords 0x10000 0x10000 (Block.upToEnd [0x40220403, 0xA4220000]) straying =
        (straying.writeInt 3 0x1001, .error ⟨.unalignedAccess, 0x10004, some 0x1001⟩) := by
      rw [hwords, Block.runWords_of_next hfirst]
      exact Block.runWords_of_trapped hsecond []
    have hretired : ((0x10004 : UInt64) - 0x10000) / 4 = 1 := by decide
    have hexit := Block.run_of_error (b := ⟨0x10000, _, object⟩) hrun
    rw [hretired] at hexit
    exact ⟨_, body, left, hcompile, hbody, hleaves, hcollect.trans hexit⟩

end AlphaMachine
