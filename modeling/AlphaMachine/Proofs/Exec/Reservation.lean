import AlphaMachine.Proofs.Exec.Effects
import AlphaMachine.Proofs.Exec.Traps
import Mathlib.Data.List.Basic
import Mathlib.Data.List.Induction

/-!
# Load-locked and store-conditional

A reservation is one flag and one address in the processor.  What they stand for is a fact about
the past: some load-locked instruction has reserved a granule, and nothing that drops reservations
has happened since.  This file ties the two together.

* `Reservation.history` : what happened to the reservation in a run, step by step, told by the
  decoded words, their addresses and their outcomes alone;
* `Reservation.Held` : a history leaves a granule reserved;
* `Reservation.reserved_apply` : the flag and the address follow the events (one step);
* `Reservation.reserved_run` : they say exactly whether the granule is held (a whole run);
* `Reservation.store_conditional_iff_held` : a store-conditional stores exactly if the granule is
  held.
-/

namespace AlphaMachine

/-! ### Granules -/

/-- Two addresses lie in the same granule of 16 bytes. -/
def SameGranule (a b : UInt64) : Prop := a.toNat / 16 = b.toNat / 16

theorem Processor.toNat_granule (a : UInt64) : (granule a).toNat = a.toNat / 16 * 16 := by
  have hmask : (~~~(lockGranule - 1)).toBitVec = BitVec.allOnes 64 <<< 4 := by decide
  have hshift : (granule a).toBitVec = a.toBitVec >>> 4 <<< 4 := by
    rw [granule, UInt64.toBitVec_and, hmask, BitVec.shiftLeft_ushiftRight]
  have hlt := a.toNat_lt
  rw [← UInt64.toNat_toBitVec, hshift, BitVec.toNat_shiftLeft, BitVec.toNat_ushiftRight,
    UInt64.toNat_toBitVec, Nat.shiftRight_eq_div_pow, Nat.shiftLeft_eq]
  omega

theorem Processor.granule_eq_iff {a b : UInt64} : granule a = granule b ↔ SameGranule a b := by
  rw [← UInt64.toNat_inj, toNat_granule, toNat_granule, SameGranule]
  omega

theorem RegisterFile.read_write_self (file : RegisterFile) {r : Reg} (h : r ≠ Reg.zero)
    (value : UInt64) : (file.write r value).read r = value := by
  rw [read, if_neg h, write, if_neg h]
  exact Vector.getElem_set_self _

theorem Processor.readInt_writeInt (cpu : Processor) {r : Reg} (h : r ≠ Reg.zero) (value : UInt64) :
    (cpu.writeInt r value).readInt r = value :=
  cpu.int.read_write_self h value

theorem Processor.readFp_writeFp (cpu : Processor) {r : Reg} (h : r ≠ Reg.zero) (value : UInt64) :
    (cpu.writeFp r value).readFp r = value :=
  cpu.fp.read_write_self h value

theorem Memory.byte?_store {mem mem' : Memory} {address : UInt64} {size : AccessSize}
    {value : UInt64} (h : mem.store address size value = .ok mem') {a : Nat}
    (ha : a < address.toNat ∨ address.toNat + size.bytes ≤ a) : mem'.byte? a = mem.byte? a := by
  unfold store at h
  split at h
  · cases h
  · next hfault =>
    cases h
    exact byte?_write hfault value ha

namespace Reservation

/-! ### Steps -/

/-- A step of a run: a word is executed as the instruction at an address, and a trap is delivered
to a handler if there is one. -/
structure Step where
  /-- The word. -/
  word : UInt32
  /-- The address of the instruction. -/
  pc : UInt64
  /-- Where a trap is delivered. -/
  handler? : Option UInt64

/-- What happened to reservations in a step. -/
inductive Event where
  /-- A load-locked instruction completed. -/
  | reserved (address : UInt64)
  /-- An ordinary store completed. -/
  | stored (address : UInt64)
  /-- A store-conditional instruction completed. -/
  | conditional
  /-- A trap was delivered. -/
  | delivered
  /-- None of these. -/
  | other

namespace Step

/-- The outcome of the instruction. -/
def outcome (s : Step) (m : Machine) : Outcome := execute s.word s.pc m

/-- The machine after a step. -/
def apply (s : Step) (m : Machine) : Machine :=
  match s.outcome m with
  | .done m' _ => m'
  | .trapped m' trap =>
    match s.handler? with
    | none => m'
    | some vector => { m' with cpu := m'.cpu.deliverTrap trap vector }

/-- What the completion of an instruction is for reservations. -/
def completion (i : Instruction) (cpu : Processor) : Event :=
  match i.opcode.access, i.address? cpu with
  | .reserve, some address => .reserved address
  | .store _ _, some address => .stored address
  | .conditional _, _ => .conditional
  | _, _ => .other

/-- The event of a step. -/
def event (s : Step) (m : Machine) : Event :=
  match s.outcome m with
  | .done _ _ => completion (.decode s.word) m.cpu
  | .trapped _ _ => if s.handler?.isSome then .delivered else .other

end Step

/-- The machine after a run. -/
def run (m : Machine) (steps : List Step) : Machine := steps.foldl (fun m s => s.apply m) m

/-- The events of a run. -/
def history (m : Machine) : List Step → List Event
  | [] => []
  | s :: rest => s.event m :: history (s.apply m) rest

theorem run_concat (m : Machine) (steps : List Step) (s : Step) :
    run m (steps ++ [s]) = s.apply (run m steps) := by
  rw [run, List.foldl_append]
  rfl

theorem history_concat (m : Machine) (steps : List Step) (s : Step) :
    history m (steps ++ [s]) = history m steps ++ [s.event (run m steps)] := by
  induction steps generalizing m with
  | nil => rfl
  | cons first rest ih => exact congrArg (first.event m :: ·) (ih (first.apply m))

/-! ### Held granules -/

/-- The granule of `b` is reserved after these events: the last load-locked instruction was in it,
and since then no store-conditional completed, no trap was delivered and no store completed in the
granule. -/
def Held (events : List Event) (b : UInt64) : Prop :=
  ∃ before a since, events = before ++ .reserved a :: since ∧ SameGranule a b ∧
    (∀ a', .reserved a' ∉ since) ∧ .conditional ∉ since ∧ .delivered ∉ since ∧
    ∀ c, .stored c ∈ since → ¬ SameGranule c a

/-- Whether the granule of `b` is reserved after an event, given whether it was before. -/
def Event.Leaves (b : UInt64) (before : Prop) : Event → Prop
  | .reserved a => SameGranule a b
  | .stored c => before ∧ ¬ SameGranule c b
  | .conditional | .delivered => False
  | .other => before

theorem not_held_nil (b : UInt64) : ¬ Held [] b := by
  rintro ⟨before, a, since, heq, -⟩
  simp at heq

theorem held_concat {events : List Event} {e : Event} {b : UInt64} :
    Held (events ++ [e]) b ↔ e.Leaves b (Held events b) := by
  constructor
  · rintro ⟨before, a, since, heq, hab, hlast, hconditional, hdelivered, hstored⟩
    -- Either the last event made the reservation, or it is one of those since then.
    rcases List.eq_nil_or_concat' since with rfl | ⟨since, x, rfl⟩
    · obtain ⟨-, he⟩ := List.append_inj' heq rfl
      obtain rfl := List.singleton_inj.1 he
      exact hab
    · rw [← List.cons_append, ← List.append_assoc] at heq
      obtain ⟨rfl, he⟩ := List.append_inj' heq rfl
      obtain rfl := List.singleton_inj.1 he
      simp only [List.mem_append, List.mem_singleton, not_or]
        at hlast hconditional hdelivered hstored
      have hheld : Held (before ++ .reserved a :: since) b :=
        ⟨before, a, since, rfl, hab, fun a' => (hlast a').1, hconditional.1, hdelivered.1,
          fun c hc => hstored c (.inl hc)⟩
      cases e with
      | reserved a' => exact absurd rfl (hlast a').2
      | stored c => exact ⟨hheld, fun hcb => hstored c (.inr rfl) (hcb.trans hab.symm)⟩
      | conditional => exact hconditional.2 rfl
      | delivered => exact hdelivered.2 rfl
      | other => exact hheld
  · intro h
    cases e with
    | reserved a => exact ⟨events, a, [], rfl, h, by simp, by simp, by simp, by simp⟩
    | conditional | delivered => exact h.elim
    | stored c =>
      obtain ⟨⟨before, a, since, rfl, hab, hlast, hconditional, hdelivered, hstored⟩, hcb⟩ := h
      refine ⟨before, a, since ++ [.stored c], by simp, hab, by simpa using hlast,
        by simpa using hconditional, by simpa using hdelivered, ?_⟩
      intro c' hc'
      rcases List.mem_append.1 hc' with hc' | hc'
      · exact hstored c' hc'
      · obtain rfl : c' = c := by simpa using hc'
        exact fun hca => hcb (hca.trans hab)
    | other =>
      obtain ⟨before, a, since, rfl, hab, hlast, hconditional, hdelivered, hstored⟩ := h
      exact ⟨before, a, since ++ [.other], by simp, hab, by simpa using hlast,
        by simpa using hconditional, by simpa using hdelivered, by simpa using hstored⟩

/-! ### The flag and the address -/

/-- The processor has the granule of `b` reserved. -/
def Reserved (m : Machine) (b : UInt64) : Prop :=
  m.cpu.lockFlag = true ∧ m.cpu.lockAddr = Processor.granule b

variable {m m' : Machine} {b : UInt64} {s : Step}

/-- A completed instruction changes the reservation as its event says. -/
theorem reserved_of_change {i : Instruction} (h : i.Change m m') :
    Reserved m' b ↔ (Step.completion i m.cpu).Leaves b (Reserved m b) := by
  unfold Step.completion
  cases h with
  | quiet haccess | int haccess | fp haccess | halt haccess | unique haccess | control haccess
  | exchange haccess =>
    rw [haccess]
    exact Iff.rfl
  | reserve haccess haddress =>
    rw [haccess, haddress]
    exact (and_iff_right rfl).trans Processor.granule_eq_iff
  | store haccess haddress hfault =>
    rw [haccess, haddress]
    simp only [Event.Leaves, Reserved, Bool.and_eq_true, bne_iff_ne, ← Processor.granule_eq_iff]
    grind
  | conditional haccess haddress | refused haccess =>
    rw [haccess]
    exact iff_of_false (fun h => Bool.noConfusion h.1) id

theorem reserved_of_trapped {word : UInt32} {pc : UInt64} {trap : Trap}
    (h : execute word pc m = .trapped m' trap) : Reserved m' b ↔ Reserved m b := by
  rw [trapped_machine h]
  split <;> exact Iff.rfl

theorem apply_of_done {flow : Flow} (h : s.outcome m = .done m' flow) : s.apply m = m' := by
  rw [Step.apply, h]

theorem event_of_done {flow : Flow} (h : s.outcome m = .done m' flow) :
    s.event m = Step.completion (.decode s.word) m.cpu := by
  rw [Step.event, h]

/-- **The flag and the address follow the events.** -/
theorem reserved_apply : Reserved (s.apply m) b ↔ (s.event m).Leaves b (Reserved m b) := by
  cases ho : s.outcome m with
  | done m' flow =>
    rw [apply_of_done ho, event_of_done ho]
    exact reserved_of_change (execute_change ho)
  | trapped m' trap =>
    unfold Step.apply Step.event
    rw [ho]
    cases s.handler? with
    | none => exact reserved_of_trapped ho
    | some vector => exact iff_of_false (fun h => Bool.noConfusion h.1) id

/-- **The flag and the address say which granule is held.** -/
theorem reserved_run (hm : m.cpu.lockFlag = false) (steps : List Step) :
    Reserved (run m steps) b ↔ Held (history m steps) b := by
  induction steps using List.reverseRecOn with
  | nil =>
    refine iff_of_false (fun h => ?_) (not_held_nil b)
    exact Bool.noConfusion (hm.symm.trans h.1)
  | append_singleton steps s ih =>
    rw [run_concat, history_concat, held_concat, reserved_apply]
    -- The event leaves equal things from equal things.
    rw [propext ih]

/-! ### Store-conditional -/

/-- The machine after a store-conditional that reports `value` in `ra`. -/
def report (m : Machine) (ra : Reg) (value : UInt64) (mem : Memory) : Machine :=
  ⟨{ m.cpu with lockFlag := false }.writeInt ra value, mem⟩

theorem readInt_report (m : Machine) {ra : Reg} (h : ra ≠ Reg.zero) (value : UInt64)
    (mem : Memory) : (report m ra value mem).cpu.readInt ra = value :=
  Processor.readInt_writeInt _ h value

/-- What a store-conditional of `ra` to `b` that completes has done, given whether the granule of
`b` was held. -/
structure Completed (held : Prop) (size : AccessSize) (b : UInt64) (ra : Reg) (m m' : Machine) :
    Prop where
  /-- With the granule held, the value is stored and success reported. -/
  success : held →
    ∃ mem, m.mem.store b size (m.cpu.readInt ra) = .ok mem ∧ m' = report m ra 1 mem
  /-- Otherwise nothing is stored and failure is reported. -/
  failure : ¬ held → m' = report m ra 0 m.mem
  /-- The register tells the two apart, unless it is register 31. -/
  register : ra ≠ Reg.zero → (held → m'.cpu.readInt ra = 1) ∧ (¬ held → m'.cpu.readInt ra = 0)
  /-- The reservation is gone. -/
  lockFlag : m'.cpu.lockFlag = false
  /-- Memory changes on success only, and only in the bytes addressed. -/
  memory : ∀ a, m'.mem.byte? a ≠ m.mem.byte? a → held ∧ b.toNat ≤ a ∧ a < b.toNat + size.bytes

/-- The outcome of a store-conditional at `pc`, given whether the granule is held. -/
inductive Conditional (held : Prop) (size : AccessSize) (b : UInt64) (ra : Reg) (pc : UInt64)
    (m : Machine) : Outcome → Prop where
  /-- It completes. -/
  | done {m' : Machine} (h : Completed held size b ra m m') :
      Conditional held size b ra pc m (.done m' .next)
  /-- The store is attempted and fails, and nothing has changed. -/
  | trapped {fault : MemoryFault} (hheld : held)
      (hstore : m.mem.store b size (m.cpu.readInt ra) = .error fault) :
      Conditional held size b ra pc m (.trapped m (Trap.ofFault fault pc))

/-- The store-conditional opcodes with their sizes. -/
theorem access_eq_conditional {opcode : Opcode} {size : AccessSize}
    (h : opcode.access = .conditional size) :
    opcode = .stlC ∧ size = .long ∨ opcode = .stqC ∧ size = .quad := by
  cases opcode <;> simp_all [Opcode.access]

theorem execute_conditional {word : UInt32} {opcode : Opcode} {ra rb : Reg} {displacement : Int16}
    {size : AccessSize} (hdecode : Instruction.decode word = .memory opcode ra rb displacement)
    (hop : opcode.access = .conditional size) (pc : UInt64) (m : Machine) :
    execute word pc m =
      MemoryOp.runStoreConditional size pc (m.cpu.readInt rb + displacementWord displacement) ra
        m := by
  obtain ⟨width, hsize, hfound⟩ : ∃ width : Width, width.accessSize = size ∧
      Operation.ofInstruction? (.memory opcode ra rb displacement) =
        some (.memory (.storeConditional width)) := by
    rcases access_eq_conditional hop with ⟨rfl, rfl⟩ | ⟨rfl, rfl⟩
    · exact ⟨.long, rfl, Operation.ofInstruction?_of_registered ⟨.stlC, none⟩ rfl
        (by decide)⟩
    · exact ⟨.quad, rfl, Operation.ofInstruction?_of_registered ⟨.stqC, none⟩ rfl
        (by decide)⟩
  rw [← hdecode] at hfound
  rw [execute_of_operation hfound, hdecode, ← hsize]
  rfl

theorem runStoreConditional_of_reserved {size : AccessSize} {ra : Reg} {pc : UInt64}
    (h : Reserved m b) :
    MemoryOp.runStoreConditional size pc b ra m =
      match m.mem.store b size (m.cpu.readInt ra) with
      | .error fault => .trapped m (Trap.ofFault fault pc)
      | .ok mem => .done (report m ra 1 mem) .next := by
  have hcond : (m.cpu.lockFlag && m.cpu.lockAddr == Processor.granule b) = true := by
    simpa [Reserved] using h
  simp only [MemoryOp.runStoreConditional, hcond, if_true, Memory.store]
  cases m.mem.storeFault? b size <;> rfl

theorem runStoreConditional_of_not_reserved {size : AccessSize} {ra : Reg} {pc : UInt64}
    (h : ¬ Reserved m b) :
    MemoryOp.runStoreConditional size pc b ra m = .done (report m ra 0 m.mem) .next := by
  have hcond : ¬ (m.cpu.lockFlag && m.cpu.lockAddr == Processor.granule b) = true := by
    simpa [Reserved] using h
  exact if_neg hcond

theorem completed_success {held : Prop} {size : AccessSize} {ra : Reg} {mem : Memory}
    (hheld : held) (hstore : m.mem.store b size (m.cpu.readInt ra) = .ok mem) :
    Completed held size b ra m (report m ra 1 mem) where
  success _ := ⟨mem, hstore, rfl⟩
  failure hnot := absurd hheld hnot
  register hra := ⟨fun _ => readInt_report m hra 1 mem, fun hnot => absurd hheld hnot⟩
  lockFlag := rfl
  memory a hne := by
    refine ⟨hheld, ?_⟩
    by_contra hout
    exact hne (Memory.byte?_store hstore (by omega))

theorem completed_failure {held : Prop} {size : AccessSize} {ra : Reg} (hheld : ¬ held) :
    Completed held size b ra m (report m ra 0 m.mem) where
  success h := absurd h hheld
  failure _ := rfl
  register hra := ⟨fun h => absurd h hheld, fun _ => readInt_report m hra 0 m.mem⟩
  lockFlag := rfl
  memory _ hne := absurd rfl hne

theorem conditional_runStoreConditional (size : AccessSize) (b : UInt64) (ra : Reg) (pc : UInt64)
    (m : Machine) :
    Conditional (Reserved m b) size b ra pc m (MemoryOp.runStoreConditional size pc b ra m) := by
  by_cases h : Reserved m b
  · rw [runStoreConditional_of_reserved h]
    cases hstore : m.mem.store b size (m.cpu.readInt ra) with
    | error fault => exact .trapped h hstore
    | ok mem => exact .done (completed_success h hstore)
  · rw [runStoreConditional_of_not_reserved h]
    exact .done (completed_failure h)

/-- **A store-conditional stores exactly if the granule is held.**  In a run that begins without a
reservation, it is attempted if and only if the last load-locked instruction that completed was in
the same granule and since then no store-conditional completed, no trap was delivered and no store
completed in the granule. -/
theorem store_conditional_iff_held {m : Machine} (hm : m.cpu.lockFlag = false) (steps : List Step)
    (s : Step) {opcode : Opcode} {ra rb : Reg} {displacement : Int16} {size : AccessSize}
    (hdecode : Instruction.decode s.word = .memory opcode ra rb displacement)
    (hop : opcode.access = .conditional size) {b : UInt64}
    (hb : b = (run m steps).cpu.readInt rb + displacementWord displacement) :
    Conditional (Held (history m steps) b) size b ra s.pc (run m steps)
      (s.outcome (run m steps)) := by
  rw [← propext (reserved_run hm steps), Step.outcome, execute_conditional hdecode hop, ← hb]
  exact conditional_runStoreConditional size b ra s.pc _

/-- A load-locked of the quadword at 0x1000 as the only step. -/
def locking : List Step := [⟨0xAC620000, 0x1000, none⟩]

/-- The hypotheses can be met, with the granule held: a load-locked, and a store-conditional to the
other quadword of the granule. -/
theorem store_conditional_iff_held_locking :
    Held (history storing locking) 0x1008 ∧
      Conditional (Held (history storing locking) 0x1008) .quad 0x1008 1 0x1004
        (run storing locking) (Step.outcome ⟨0xBC220008, 0x1004, none⟩ (run storing locking)) := by
  have hop : Operation.ofInstruction? (.decode 0xAC620000) = some (.memory (.loadLocked .quad)) :=
    Operation.ofInstruction?_of_registered ⟨.ldqL, none⟩ rfl (by decide)
  have hload : Step.outcome ⟨0xAC620000, 0x1000, none⟩ storing =
      .done ({ storing with cpu := storing.cpu.setLock 0x1000 }.writeInt 3 0) .next := by
    rw [Step.outcome, execute_of_operation hop]
    decide
  have hrun : run storing locking =
      { storing with cpu := storing.cpu.setLock 0x1000 }.writeInt 3 0 := by
    rw [run, locking, List.foldl_cons, List.foldl_nil, apply_of_done hload]
  have hhistory : history storing locking = [.reserved 0x1000] := by
    rw [locking, history, history, event_of_done hload]
    rfl
  have hdecode : Instruction.decode 0xBC220008 = .memory .stqC 1 2 8 := by decide
  have hb : 0x1008 = (run storing locking).cpu.readInt 2 + displacementWord 8 := by
    rw [hrun]
    decide
  refine ⟨?_, store_conditional_iff_held (by decide) locking ⟨0xBC220008, 0x1004, none⟩ hdecode rfl
    hb⟩
  rw [hhistory]
  exact ⟨[], 0x1000, [], rfl, rfl, nofun, nofun, nofun, nofun⟩

end Reservation

end AlphaMachine
