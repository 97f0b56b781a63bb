import AlphaMachine.Proofs.Exec.Alignment
import AlphaMachine.Proofs.Exec.Reservation

/-!
# Well-formed machines

Register 31 has a slot in each file, which stays zero; a trap is pending only while a compiled block
runs; a reservation is of a whole granule.  `Machine.WellFormed` puts this together, and
`execute_wellFormed` says that instructions keep it, whether they complete or trap.
-/

namespace AlphaMachine

/-- What holds of a machine between instructions. -/
structure Machine.WellFormed (m : Machine) : Prop where
  /-- The slot of integer register 31 is zero. -/
  zeroInt : m.cpu.slot (.int Reg.zero) = 0
  /-- The slot of floating register 31 is zero. -/
  zeroFp : m.cpu.slot (.fp Reg.zero) = 0
  /-- No trap is pending. -/
  pendingTrap : m.cpu.pendingTrap = 0
  /-- The pending slot has no address. -/
  pendingTrapAddr : m.cpu.pendingTrapAddr = 0
  /-- Reservations are of whole granules. -/
  lockAddr : 16 ∣ m.cpu.lockAddr.toNat

/-- The machine that an outcome leaves. -/
def Outcome.machine : Outcome → Machine
  | .done m _ | .trapped m _ => m

variable {m m' : Machine}

theorem wellFormed_startingAt (pc : UInt64) (mem : Memory) :
    Machine.WellFormed ⟨.startingAt pc, mem⟩ where
  zeroInt := Vector.getElem_replicate _
  zeroFp := Vector.getElem_replicate _
  pendingTrap := rfl
  pendingTrapAddr := rfl
  lockAddr := ⟨0, rfl⟩

namespace Machine.WellFormed

/-- Only some fields matter. -/
theorem congr (h : m.WellFormed) (hint : m'.cpu.int = m.cpu.int) (hfp : m'.cpu.fp = m.cpu.fp)
    (htrap : m'.cpu.pendingTrap = m.cpu.pendingTrap)
    (haddr : m'.cpu.pendingTrapAddr = m.cpu.pendingTrapAddr)
    (hlock : m'.cpu.lockAddr = m.cpu.lockAddr) : m'.WellFormed where
  zeroInt := (Processor.slot_congr hint hfp _).trans h.zeroInt
  zeroFp := (Processor.slot_congr hint hfp _).trans h.zeroFp
  pendingTrap := htrap.trans h.pendingTrap
  pendingTrapAddr := haddr.trans h.pendingTrapAddr
  lockAddr := hlock ▸ h.lockAddr

theorem atCycles (h : m.WellFormed) (cycles : UInt64) : (m.atCycles cycles).WellFormed :=
  h.congr rfl rfl rfl rfl rfl

end Machine.WellFormed

/-- At most one register is written, and never number 31. -/
theorem Processor.AtMostOne.slot_zero {cpu cpu' : Processor} (h : cpu.AtMostOne cpu') {s : Slot}
    (hs : s.number = Reg.zero) : cpu'.slot s = cpu.slot s := by
  obtain ⟨r, hr, hothers⟩ := h
  refine hothers s ?_
  rintro rfl
  exact hr hs

theorem Processor.sixteen_dvd_granule (address : UInt64) : 16 ∣ (granule address).toNat :=
  ⟨address.toNat / 16, by rw [toNat_granule, Nat.mul_comm]⟩

theorem Instruction.Change.lockAddr_dvd {i : Instruction} (h : i.Change m m')
    (hm : 16 ∣ m.cpu.lockAddr.toNat) : 16 ∣ m'.cpu.lockAddr.toNat := by
  cases h with
  | reserve => exact Processor.sixteen_dvd_granule _
  | _ => exact hm

/-- **Instructions keep machines well-formed**, whether they complete or trap. -/
theorem execute_wellFormed (h : m.WellFormed) (word : UInt32) (pc : UInt64) :
    (execute word pc m).machine.WellFormed := by
  cases hexecute : execute word pc m with
  | done m' flow =>
    have hchange := execute_change hexecute
    have hkeeps := execute_keeps word pc m
    rw [hexecute] at hkeeps
    exact {
      zeroInt := (hchange.registers.slot_zero rfl).trans h.zeroInt
      zeroFp := (hchange.registers.slot_zero rfl).trans h.zeroFp
      pendingTrap := hkeeps.pendingTrap.trans h.pendingTrap
      pendingTrapAddr := hkeeps.pendingTrapAddr.trans h.pendingTrapAddr
      lockAddr := hchange.lockAddr_dvd h.lockAddr }
  | trapped m' trap =>
    show m'.WellFormed
    -- A trap may note an overflow, in the floating control register.
    rw [trapped_machine hexecute]
    split
    · exact h.congr rfl rfl rfl rfl rfl
    · exact h

end AlphaMachine
