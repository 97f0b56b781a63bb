import AlphaMachine.Proofs.Engine.Protocol
import AlphaMachine.Proofs.Engine.Steps
import AlphaMachine.Proofs.Exec.Alignment

/-!
# The program counter stays aligned

If an engine starts at a multiple of four, its trap vectors stand at multiples of four and its
owner moves the program counter to multiples of four only, then the program counter and the
exception address are multiples of four forever (`Engine.InLine`, `Engine.InLine.step`).  So
instructions can be fetched wherever memory is mapped, and a trap for a misaligned access is always
about data (`Engine.counter_aligned`).
-/

namespace AlphaMachine

/-! ### Runs of blocks -/

namespace Block

variable {start pc pc' : UInt64} {word : UInt32} {words : List UInt32} {m m' : Machine}

theorem lands_runWord (hpc : Aligned pc) (start : UInt64) (word : UInt32) (m : Machine) :
    (runWord start pc word m).Lands pc := by
  rw [Engine.runWord_eq_map]
  have hlands := execute_lands hpc word (m.atCycles (m.cpu.cycles + (pc - start) / 4))
  generalize execute word pc (m.atCycles (m.cpu.cycles + (pc - start) / 4)) = o at hlands ⊢
  cases o with
  | done m' flow => exact hlands
  | trapped m' trap => trivial

/-- The instructions of a block stand one behind the other. -/
theorem Reaches.aligned (h : Reaches start pc words m pc' word m') (hpc : Aligned pc) :
    Aligned pc' := by
  refine h.induction (J := fun pc _ => Aligned pc) ?_ hpc
  intro pc word m m' hpc _
  exact hpc.add_four

/-- A block that is left goes on at an address for instructions. -/
theorem aligned_of_exit {exit : UInt64 × Bool} (hpc : Aligned pc)
    (h : runWords start pc words m = (m', .ok exit)) : Aligned exit.1 := by
  by_cases hne : words = []
  · subst hne
    cases h
    exact hpc
  · obtain ⟨pc', word, m₁, flow, hreaches, hdone, hexit⟩ := exists_reaches_of_exit hne h
    have hlands := lands_runWord (hreaches.aligned hpc) start word m₁
    rw [hdone] at hlands
    rw [hexit]
    exact hlands

/-- A block that traps does so at an address for instructions. -/
theorem aligned_of_trap {trap : Trap} (hpc : Aligned pc)
    (h : runWords start pc words m = (m', .error trap)) : Aligned trap.pc := by
  obtain ⟨pc', word, m₁, hreaches, htrap⟩ := exists_reaches_of_trap h
  rw [Engine.pc_of_runWord htrap]
  exact hreaches.aligned hpc

/-- A trap for a misaligned access is about the data of the instruction that was reached. -/
theorem runWord_unaligned {trap : Trap} (h : runWord start pc word m = .trapped m' trap)
    (hkind : trap.kind = .unalignedAccess) :
    ∃ address, trap.address = some address ∧
      (Instruction.decode word).Misaligns m.cpu address := by
  rw [Engine.runWord_eq_map, Outcome.map_eq_trapped] at h
  obtain ⟨m₁, hexecute, -⟩ := h
  -- The cycle count has no part in addresses.
  have hmisaligns := execute_unaligned hexecute hkind
  exact hmisaligns

end Block

namespace Engine

/-! ### The invariant -/

/-- The engine executes at multiples of four. -/
structure InLine (e : Engine) : Prop where
  /-- The next instruction. -/
  pc : Aligned e.machine.cpu.pc
  /-- Where the last trap resumes. -/
  excAddr : Aligned e.machine.cpu.excAddr
  /-- The handlers. -/
  vectors : Aligned e.control.settings.trapVectorBase
  /-- Blocks start where they were visited. -/
  blocks : Control.Holds (fun _ _ => True) e.control

variable {e : Engine} {c : Control} {m : Machine} {trap : Trap}

theorem fetchedHave_true (mem : Memory) (limit : Nat) :
    Control.FetchedHave (fun _ _ => True) mem limit := fun _ _ _ _ => trivial

theorem inLine_start (mem : Memory) {entry : UInt64} (hentry : Aligned entry)
    {settings : Settings} (hbase : Aligned settings.trapVectorBase) :
    InLine (start mem entry settings) where
  pc := hentry
  excAddr := ⟨0, rfl⟩
  vectors := hbase
  blocks := Control.holds_start _ settings

theorem InLine.start_eq (h : e.InLine) {block : Block} (henters : e.Enters (some block) c) :
    block.start = e.machine.cpu.pc := by
  have hvisit := henters.visit_eq
  have hblocks : Control.Holds (fun _ _ => True)
      { e.control with atBlockEntry := false, runLength := 0 } := h.blocks.congr rfl rfl rfl
  exact (hblocks.of_visit (fetchedHave_true ..) (congrArg Prod.fst hvisit)).1

/-! ### Steps -/

theorem aligned_raise (hpc : Aligned trap.pc) (hexc : Aligned m.cpu.excAddr)
    (hbase : Aligned c.settings.trapVectorBase) :
    Aligned (raise ⟨m, c⟩ trap).1.machine.cpu.pc ∧
      Aligned (raise ⟨m, c⟩ trap).1.machine.cpu.excAddr := by
  unfold raise
  dsimp only [Control.enterBlock]
  split
  · exact ⟨hpc, hexc⟩
  · exact ⟨aligned_vector hbase trap.kind, trap.aligned_exceptionAddress hpc⟩

/-- **A step keeps program counter and exception address in line**, whichever way it ends. -/
theorem Stepped.aligned {r : Engine × Option Exit} (hstepped : Stepped e r) (h : e.InLine) :
    Aligned r.1.machine.cpu.pc ∧ Aligned r.1.machine.cpu.excAddr := by
  cases hstepped with
  | halted => exact ⟨h.pc, h.excAddr⟩
  | fault henters hfetch =>
    refine aligned_raise ?_ h.excAddr (henters.settings ▸ h.vectors)
    rw [Trap.pc_ofFault]
    exact h.pc
  | @trap c henters word hfetch m' trap hexecute =>
    have hkeeps := execute_keeps word e.machine.cpu.pc e.machine
    rw [hexecute] at hkeeps
    refine aligned_raise ?_ ?_ (henters.settings ▸ h.vectors)
    · exact hkeeps.2 ▸ h.pc
    · exact hkeeps.1.excAddr ▸ h.excAddr
  | @done c henters word hfetch m' flow hexecute =>
    have hkeeps := execute_keeps word e.machine.cpu.pc e.machine
    have hlands := execute_lands h.pc word e.machine
    rw [hexecute] at hkeeps hlands
    exact ⟨hlands, hkeeps.excAddr ▸ h.excAddr⟩
  | @blockTrap c block henters m' trap hrun =>
    have hstart : Aligned block.start := h.start_eq henters ▸ h.pc
    have hexc : Aligned m'.cpu.excAddr := (Block.keeps_runWords hrun).excAddr ▸ h.excAddr
    exact aligned_raise (Block.aligned_of_trap hstart hrun) hexc (henters.settings ▸ h.vectors)
  | @blockDone c block henters m' exit hrun =>
    have hstart : Aligned block.start := h.start_eq henters ▸ h.pc
    have hexc : Aligned m'.cpu.excAddr := (Block.keeps_runWords hrun).excAddr ▸ h.excAddr
    exact ⟨Block.aligned_of_exit hstart hrun, hexc⟩

theorem InLine.step (h : e.InLine) : e.step.1.InLine where
  pc := (e.stepped.aligned h).1
  excAddr := (e.stepped.aligned h).2
  vectors := by
    rw [control_step, Control.settings_after]
    exact h.vectors
  blocks := h.blocks.step (fetchedHave_true ..)

/-! ### Histories -/

/-- The owner moves the program counter to multiples of four only. -/
def Event.Steers : Event → Prop
  | .setPc pc => Aligned pc
  | _ => True

theorem InLine.apply (h : e.InLine) {event : Event} (hevent : event.Steers) :
    (e.apply event).InLine := by
  have hblocks := h.blocks.apply (fun mem limit => fetchedHave_true mem limit) event
  cases event with
  | step => exact h.step
  | setPc pc => exact ⟨hevent, h.excAddr, h.vectors, hblocks⟩
  | setMemory mem => exact ⟨h.pc, h.excAddr, h.vectors, hblocks⟩
  | invalidate address => exact ⟨h.pc, h.excAddr, h.vectors, hblocks⟩
  | invalidateAll => exact ⟨h.pc, h.excAddr, h.vectors, hblocks⟩
  | await =>
    have hsettings := (Control.keeps_await e.control).settings
    exact ⟨h.pc, h.excAddr, hsettings ▸ h.vectors, hblocks⟩
  | work => exact ⟨h.pc, h.excAddr, h.vectors, hblocks⟩

theorem InLine.after (h : e.InLine) {events : List Event}
    (hevents : ∀ event ∈ events, event.Steers) : (e.after events).InLine := by
  induction events generalizing e with
  | nil => exact h
  | cons event rest ih =>
    have hfirst := h.apply (hevents event List.mem_cons_self)
    exact ih hfirst fun event hevent => hevents event (List.mem_cons_of_mem _ hevent)

/-! ### Traps -/

theorem fetch_ne_unaligned (h : Aligned m.cpu.pc) (address : UInt64) :
    Control.fetch m.mem m.cpu.pc ≠ .error (.unaligned address) := by
  intro hfetch
  unfold Control.fetch at hfetch
  cases hload : m.mem.load m.cpu.pc .long with
  | ok value =>
    rw [hload] at hfetch
    cases hfetch
  | error fault =>
    rw [hload] at hfetch
    cases hfetch
    have hmisaligned := (Memory.of_load_unaligned hload).2
    rw [aligned_iff_isAligned.1 h] at hmisaligned
    cases hmisaligned

/-- Every trap names an address for instructions. -/
theorem InLine.aligned_of_raises (h : e.InLine) {cause : Option (UInt32 × Machine)}
    (hraises : e.Raises trap cause) : Aligned trap.pc := by
  cases hraises with
  | fetch hfetch =>
    rw [Trap.pc_ofFault]
    exact h.pc
  | @interpreted word hfetch m' _ hexecute =>
    have hkeeps := execute_keeps word e.machine.cpu.pc e.machine
    rw [hexecute] at hkeeps
    exact hkeeps.2 ▸ h.pc
  | compiled henters hreaches hrun =>
    rw [pc_of_runWord hrun]
    exact hreaches.aligned (h.start_eq henters ▸ h.pc)

/-- A trap for a misaligned access is about data. -/
theorem InLine.misaligns_of_raises (h : e.InLine) {cause : Option (UInt32 × Machine)}
    (hraises : e.Raises trap cause) (hkind : trap.kind = .unalignedAccess) :
    ∃ word m address, cause = some (word, m) ∧ trap.address = some address ∧
      (Instruction.decode word).Misaligns m.cpu address := by
  cases hraises with
  | fetch hfetch =>
    obtain ⟨address, rfl⟩ := Trap.kind_ofFault_eq hkind
    exact absurd hfetch (fetch_ne_unaligned h.pc address)
  | @interpreted word hfetch m' _ hexecute =>
    obtain ⟨address, haddress, hmisaligns⟩ := execute_unaligned hexecute hkind
    exact ⟨word, e.machine, address, rfl, haddress, hmisaligns⟩
  | @compiled c block henters pc word m m' _ hreaches hrun =>
    obtain ⟨address, haddress, hmisaligns⟩ := Block.runWord_unaligned hrun hkind
    exact ⟨word, m, address, rfl, haddress, hmisaligns⟩

/-- **The program counter stays aligned.**  Whatever happens to an engine, if its start, its trap
vectors and the addresses to which its owner moves the program counter are multiples of four, then
so are the program counter and the exception address, and no instruction fetch fails for its
alignment.  The next step raises at most one trap, which it counts; the trap names a multiple of
four, and if it is for a misaligned access, then the instruction that was being executed is a load
or a store, and the trap carries the address of its data. -/
theorem counter_aligned (mem : Memory) (entry : UInt64) (settings : Settings)
    (hentry : Aligned entry) (hbase : Aligned settings.trapVectorBase) (events : List Event)
    (hevents : ∀ pc, Event.setPc pc ∈ events → Aligned pc) :
    let e := (start mem entry settings).after events
    Aligned e.machine.cpu.pc ∧ Aligned e.machine.cpu.excAddr ∧
      (∀ address, Control.fetch e.machine.mem e.machine.cpu.pc ≠ .error (.unaligned address)) ∧
      Traps e e.step ∧
      ∀ trap cause, e.Raises trap cause → Aligned trap.pc ∧
        (trap.kind = .unalignedAccess → ∃ word m address, cause = some (word, m) ∧
          trap.address = some address ∧ (Instruction.decode word).Misaligns m.cpu address) := by
  intro e
  have hsteers : ∀ event ∈ events, event.Steers := by
    intro event hevent
    cases event with
    | setPc pc => exact hevents pc hevent
    | _ => trivial
  have h : e.InLine := (inLine_start mem hentry hbase).after hsteers
  refine ⟨h.pc, h.excAddr, fetch_ne_unaligned h.pc, e.stepped.traps, ?_⟩
  intro trap cause hraises
  exact ⟨h.aligned_of_raises hraises, h.misaligns_of_raises hraises⟩

/-- One instruction, which loads a quadword at address one. -/
def oddLoad : Memory := ⟨0x1000, #[0x01, 0x00, 0x3f, 0xa4], none, by decide⟩

/-- The owner moves the program counter to the instruction, which traps for the alignment of its
data. -/
theorem counter_aligned_oddLoad :
    let events : List Event := [.setPc 0x1000]
    let e := (start oddLoad 0x2000 {}).after events
    Aligned 0x2000 ∧ Aligned ({} : Settings).trapVectorBase ∧
      (Event.setPc 0x1000 ∈ events ∧ ∀ pc, Event.setPc pc ∈ events → Aligned pc) ∧
      e.Raises ⟨.unalignedAccess, 0x1000, some 1⟩ (some (0xa43f0001, e.machine)) ∧
      ∃ word m address, some (0xa43f0001, e.machine) = some (word, m) ∧ some 1 = some address ∧
        (Instruction.decode word).Misaligns m.cpu address := by
  intro events e
  have hentry : Aligned 0x2000 := ⟨0x800, rfl⟩
  have hbase : Aligned ({} : Settings).trapVectorBase := ⟨0, rfl⟩
  have hevents : ∀ pc, Event.setPc pc ∈ events → Aligned pc := by
    intro pc hpc
    cases List.mem_singleton.1 hpc
    exact ⟨0x400, rfl⟩
  have hop : Operation.ofInstruction? (.decode 0xa43f0001) = some (.memory (.load .quad)) :=
    Operation.ofInstruction?_of_registered ⟨.ldq, none⟩ rfl (by decide)
  have hexecute : execute 0xa43f0001 0x1000 e.machine =
      .trapped e.machine ⟨.unalignedAccess, 0x1000, some 1⟩ := by
    rw [execute_of_operation hop]
    decide
  have hraises : e.Raises ⟨.unalignedAccess, 0x1000, some 1⟩ (some (0xa43f0001, e.machine)) :=
    .interpreted (by decide) hexecute
  obtain ⟨-, -, -, -, htraps⟩ := counter_aligned oddLoad 0x2000 {} hentry hbase events hevents
  exact ⟨hentry, hbase, ⟨List.mem_singleton.2 rfl, hevents⟩, hraises, (htraps _ _ hraises).2 rfl⟩

end Engine

end AlphaMachine
