import AlphaMachine.Proofs.Block.RegisterOnly
import AlphaMachine.Proofs.Exec.Frame

/-!
# Compiled memory accesses

Loads and stores compute their address in `rsi` and call a helper.  A helper that fails leaves a
trap in the pending slot, which the code looks at next.

* `Realizes.loadMemory`, `Realizes.storeMemory` : the two accesses, completed and failed;
* `MemoryOp.realizes_of_lower?` : the code of a memory operation does what the operation does.
-/

namespace AlphaMachine

open Host

namespace Block

variable {link : Linkage} {s s' : Host.State} {pc : UInt64} {code rest : Code} {endsBlock : Bool}

/-! ### Helpers -/

theorem accessSize_bytes (size : AccessSize) : accessSize size.bytes.toUInt64 = size := by
  cases size <;> rfl

theorem code_ne_zero (kind : TrapKind) : kind.code ≠ 0 := by
  cases kind <;> decide

theorem pendingTrap_pend (m : Machine) (trap : Trap) : (pend m trap).cpu.pendingTrap ≠ 0 :=
  code_ne_zero trap.kind

/-- The pending slot does not say where the trap came from. -/
theorem pend_ofFault (m : Machine) (fault : MemoryFault) (pc : UInt64) :
    pend m (Trap.ofFault fault pc) = pend m (Trap.ofFault fault 0) := by
  cases fault <;> rfl

/-- Code behind the check of the pending slot, which is empty. -/
theorem Realizes.checkPending {o : Outcome} (hs : Ready link s)
    (hcode : Unbound (.trap pc none) code)
    (h : ∀ flags, Realizes link code pc endsBlock { s with flags } o) :
    Realizes link (Block.checkPending pc ++ code) pc endsBlock s o := by
  obtain ⟨flags, hexec⟩ := exec_checkPending hs.state pc hcode
  have hsame : Same s { s with flags } := ⟨⟨rfl, rfl, rfl, rfl⟩, rfl, rfl⟩
  rw [if_pos hs.pending] at hexec
  exact .of_kept hsame.toKept hsame.flush hexec (h flags)

/-- The check finds a trap that a helper left. -/
theorem Realizes.pending {m : Machine} {trap : Trap} (hstate : s.gpr .rbx = link.state)
    (hguest : s.guest = pend m trap) (hcode : Unbound (.trap pc none) code) :
    Realizes link (Block.checkPending pc ++ code) pc endsBlock s (.trapped m trap) := by
  obtain ⟨flags, hexec⟩ := exec_checkPending hstate pc hcode
  have hpending : s.guest.cpu.pendingTrap ≠ 0 := by
    rw [hguest]
    exact pendingTrap_pend m trap
  rw [if_neg hpending] at hexec
  exact ⟨_, _, hexec, execFrom_trapExit_none pc _, ⟨rfl, rfl, rfl, rfl⟩, hguest, rfl, rfl⟩

/-! ### Addresses -/

/-- The address that an access goes to. -/
def accessAddress (m : Machine) (rb : Reg) (displacement : Int16) (down : Bool) : UInt64 :=
  let address := m.cpu.readInt rb + displacementWord displacement
  if down then alignDown address else address

theorem exec_effectiveAddress (hs : Ready link s) (rb : Reg) (displacement : Int16) (down : Bool) :
    ∃ s', exec link (effectiveAddress rb displacement down ++ rest) s = exec link rest s' ∧
      s'.gpr .rsi = accessAddress s.guest rb displacement down ∧ s'.gpr .rdx = s.gpr .rdx ∧
      Same s s' := by
  have himmediate := immediate_toInt32 displacement
  unfold effectiveAddress
  rw [List.append_assoc]
  cases down with
  | false =>
    obtain ⟨s₁, hexec, hrsi, hrdx, hs₁⟩ := exec_address hs (.inr rfl) rb displacement.toInt32
    rw [himmediate] at hrsi
    exact ⟨s₁, hexec, hrsi, hrdx, hs₁⟩
  | true =>
    obtain ⟨s₁, hexec, hrsi, hrdx, hs₁⟩ := exec_address hs (.inr rfl) rb displacement.toInt32
    obtain ⟨s₂, hsteps, hvalue, hkeep, hs₂⟩ : ∃ s₂,
        steps link [.aluImm .and .qword .rsi (-8)] s₁ = some s₂ ∧
        s₂.gpr .rsi = s₁.gpr .rsi &&& ~~~7 ∧ s₂.gpr .rdx = s₁.gpr .rdx ∧ Same s₁ s₂ :=
      ⟨_, rfl, rfl, rfl, ⟨⟨rfl, rfl, rfl, rfl⟩, rfl, rfl⟩⟩
    refine ⟨s₂, hexec.trans (exec_of_steps hsteps), ?_, hkeep.trans hrdx, hs₁.trans hs₂⟩
    rw [hvalue, hrsi, himmediate]
    rfl

section Unbound

variable (label : Block.Label) (rb : Reg) (displacement : Int16) (size : AccessSize) (down : Bool)

@[simp] theorem unbound_effectiveAddress :
    Unbound label (effectiveAddress rb displacement down) := by
  unfold effectiveAddress address
  simp only [unbound_append, unbound_loadInt, true_and]
  constructor <;> split <;> simp

@[simp] theorem unbound_loadMemory : Unbound label (loadMemory pc rb displacement size down) := by
  simp [loadMemory, call, Block.checkPending]

@[simp] theorem unbound_storeMemory : Unbound label (storeMemory pc rb displacement size down) := by
  simp [storeMemory, call, Block.checkPending]

end Unbound

/-! ### Loads -/

/-- The call of the load helper. -/
theorem exec_callLoad (hs : Ready link s) (size : AccessSize) {address : UInt64}
    (hrsi : s.gpr .rsi = address) :
    ∃ s', exec link (instrs [.mov .qword .rdi .r12, .movImm .rdx size.bytes.toUInt64] ++
        (call .load ++ rest)) s = exec link rest s' ∧
      s'.gpr .rax = (helpLoad s.guest address size.bytes.toUInt64).1 ∧
      s'.guest = (helpLoad s.guest address size.bytes.toUInt64).2 ∧ Kept s s' ∧
      s'.flush = s.flush := by
  let s₁ := ((s.set .rdi (s.gpr .r12)).set .rdx size.bytes.toUInt64).set .rax (link.address .load)
  have hframe : s₁.gpr .rdi = link.frame := hs.frame
  have haddress : s₁.gpr .rsi = address := hrsi
  let s₂ := link.returned s₁ (helpLoad s.guest address size.bytes.toUInt64).1
    (helpLoad s.guest address size.bytes.toUInt64).2
  have hcall : link.callHelper s₁ .load = some s₂ := by
    simp only [Linkage.callHelper, hframe, if_true, haddress]
    rfl
  refine ⟨s₂, ?_, rfl, rfl, ⟨rfl, rfl, rfl, liveStack_returned ..⟩, rfl⟩
  rw [exec_of_steps rfl, exec_call]
  exact congrArg (Option.bind · (exec link rest)) hcall

/-- **Loads.**  A completed load leaves the value in `rax`; a failed one leaves for its trap. -/
theorem Realizes.loadMemory (hs : Ready link s) (rb : Reg) (displacement : Int16)
    (size : AccessSize) (down : Bool) (hcode : Unbound (.trap pc none) code)
    {k : UInt64 → Outcome}
    (h : ∀ s' value, Same s s' → s'.gpr .rax = value →
      Realizes link code pc endsBlock s' (k value)) :
    Realizes link (Block.loadMemory pc rb displacement size down ++ code) pc endsBlock s
      (s.guest.loadThen pc (accessAddress s.guest rb displacement down) size k) := by
  unfold Block.loadMemory
  simp only [List.append_assoc]
  obtain ⟨s₁, hexec₁, hrsi, -, hs₁⟩ := exec_effectiveAddress hs rb displacement down
  obtain ⟨s₂, hexec₂, hrax, hguest, hkept, hflush⟩ := exec_callLoad (hs.same hs₁) size hrsi
  refine .of_kept (hs₁.toKept.trans hkept) (hflush.trans hs₁.flush) (hexec₁.trans hexec₂) ?_
  rw [hs₁.guest, helpLoad, accessSize_bytes] at hrax hguest
  unfold Machine.loadThen
  cases hload : s.guest.mem.load (accessAddress s.guest rb displacement down) size with
  | ok value =>
    rw [hload] at hrax hguest
    have hs₂ : Same s s₂ := ⟨hs₁.toKept.trans hkept, hguest, hflush.trans hs₁.flush⟩
    refine .checkPending (hs.same hs₂) hcode fun flags => ?_
    exact h _ value ⟨⟨hs₂.rbx, hs₂.rsp, hs₂.r12, hs₂.stack⟩, hs₂.guest, hs₂.flush⟩ hrax
  | error fault =>
    rw [hload] at hguest
    have hstate : s₂.gpr .rbx = link.state := hkept.rbx.trans (hs.same hs₁).state
    refine .pending hstate ?_ hcode
    rw [pend_ofFault]
    exact hguest

/-! ### Stores -/

/-- The call of the store helper. -/
theorem exec_callStore (hs : Ready link s) (size : AccessSize) {address value : UInt64}
    (hrsi : s.gpr .rsi = address) (hrdx : s.gpr .rdx = value) :
    ∃ s', exec link (instrs [.mov .qword .rdi .r12, .movImm .rcx size.bytes.toUInt64] ++
        (call .store ++ rest)) s = exec link rest s' ∧
      s'.guest = helpStore s.guest address value size.bytes.toUInt64 ∧ Kept s s' ∧
      s'.flush = s.flush := by
  let s₁ :=
    ((s.set .rdi (s.gpr .r12)).set .rcx size.bytes.toUInt64).set .rax (link.address .store)
  have hframe : s₁.gpr .rdi = link.frame := hs.frame
  have haddress : s₁.gpr .rsi = address := hrsi
  have hvalue : s₁.gpr .rdx = value := hrdx
  let s₂ := link.returned s₁ (link.clobbered s₁ .rax)
    (helpStore s.guest address value size.bytes.toUInt64)
  have hcall : link.callHelper s₁ .store = some s₂ := by
    simp only [Linkage.callHelper, hframe, if_true, haddress, hvalue]
    rfl
  refine ⟨s₂, ?_, rfl, ⟨rfl, rfl, rfl, liveStack_returned ..⟩, rfl⟩
  rw [exec_of_steps rfl, exec_call]
  exact congrArg (Option.bind · (exec link rest)) hcall

/-- **Stores.**  The value in `rdx` is stored, or the code leaves for the trap of the failed
access. -/
theorem Realizes.storeMemory (hs : Ready link s) (rb : Reg) (displacement : Int16)
    (size : AccessSize) (down : Bool) {value : UInt64} (hrdx : s.gpr .rdx = value) :
    Realizes link (Block.storeMemory pc rb displacement size down) pc false s
      (s.guest.storeInt pc (accessAddress s.guest rb displacement down) size value) := by
  unfold Block.storeMemory
  rw [← List.append_nil (Block.checkPending pc)]
  simp only [List.append_assoc]
  obtain ⟨s₁, hexec₁, hrsi, hkeep, hs₁⟩ := exec_effectiveAddress hs rb displacement down
  obtain ⟨s₂, hexec₂, hguest, hkept, hflush⟩ :=
    exec_callStore (hs.same hs₁) size hrsi (hkeep.trans hrdx)
  refine .of_kept (hs₁.toKept.trans hkept) (hflush.trans hs₁.flush) (hexec₁.trans hexec₂) ?_
  have hstate : s₂.gpr .rbx = link.state := hkept.rbx.trans (hs.same hs₁).state
  have hframe : s₂.gpr .r12 = link.frame := hkept.r12.trans (hs.same hs₁).frame
  rw [hs₁.guest, helpStore, accessSize_bytes] at hguest
  unfold Machine.storeInt at hguest ⊢
  cases hfault : s.guest.mem.storeFault? (accessAddress s.guest rb displacement down) size with
  | none =>
    rw [hfault] at hguest
    have hpending : s₂.guest.cpu.pendingTrap = 0 := by
      rw [hguest]
      exact (Machine.keepsOn_clearLock s.guest _ rfl rfl).pendingTrap.trans hs.pending
    refine .checkPending ⟨hstate, hframe, hpending⟩ (unbound_nil _) fun flags => ?_
    exact Completes.next exec_nil ⟨rfl, rfl, rfl, rfl⟩ hguest rfl
  | some fault =>
    rw [hfault] at hguest
    refine .pending hstate ?_ (unbound_nil _)
    rw [pend_ofFault]
    exact hguest

end Block

open Block

variable {link : Linkage} {s : Host.State} {pc : UInt64} {ra rb : Reg} {displacement : Int16}

/-! ### Operations -/

namespace MemoryOp

/-- An integer load. -/
theorem realizes_loadToInt (hs : Ready link s) (size : AccessSize) (down : Bool) :
    Realizes link (loadToInt pc ra rb displacement size down) pc false s
      (runLoad size pc (accessAddress s.guest rb displacement down) ra s.guest) := by
  unfold loadToInt runLoad
  by_cases hra : ra = Reg.zero
  · rw [if_pos hra, if_pos hra]
    exact Completes.next exec_nil (Kept.refl s) rfl rfl
  · rw [if_neg hra, if_neg hra, List.append_assoc]
    refine .loadMemory hs rb displacement size down (by split <;> simp) ?_
    intro s₁ value hs₁ hrax
    have hready := hs.same hs₁
    rw [← hs₁.guest, AccessSize.extend]
    by_cases hsize : size = .long
    · rw [if_pos hsize, if_pos hsize]
      exact Native.realizes hready (.storeResult hready ra .long hrax)
    · rw [if_neg hsize, if_neg hsize]
      exact Native.realizes hready (.storeInt hready ra .rax hrax)

/-- An integer store. -/
theorem realizes_store (hs : Ready link s) (size : AccessSize) (down : Bool) :
    Realizes link (loadInt .rdx ra ++ storeMemory pc rb displacement size down) pc false s
      (s.guest.storeInt pc (accessAddress s.guest rb displacement down) size
        (s.guest.cpu.readInt ra)) := by
  have hs₁ := same_loaded s (.inr (.inr (.inl rfl))) ra (s.guest.cpu.readInt ra)
  exact .of_kept hs₁.toKept hs₁.flush (exec_loadInt hs.state .rdx ra)
    (.storeMemory (hs.same hs₁) rb displacement size down rfl)

/-- A floating load; the enable is checked before register 31 makes it a hint. -/
theorem realizes_floatLoad {code : Code} (hs : Ready link s)
    (h : (floatLoad .double).lower? pc ra rb displacement = some code) :
    Realizes link code pc false s ((floatLoad .double).run pc ra rb displacement s.guest) := by
  cases h
  refine .checkFp hs ?_ fun s₁ hs₁ => ?_
  · split <;> simp
  have hready := hs.same hs₁
  rw [← hs₁.guest]
  by_cases hra : ra = Reg.zero
  · rw [if_pos hra, if_pos hra]
    exact Completes.next exec_nil (Kept.refl s₁) rfl rfl
  · rw [if_neg hra, if_neg hra]
    refine .loadMemory hready rb displacement .quad false (by simp) ?_
    intro s₂ value hs₂ hrax
    rw [← hs₂.guest]
    exact Native.realizes (hready.same hs₂) (.storeFp (hready.same hs₂) ra .rax hrax)

theorem realizes_floatStore {code : Code} (hs : Ready link s)
    (h : (floatStore .double).lower? pc ra rb displacement = some code) :
    Realizes link code pc false s ((floatStore .double).run pc ra rb displacement s.guest) := by
  cases h
  rw [List.append_assoc]
  refine .checkFp hs (by simp) fun s₁ hs₁ => ?_
  have hs₂ := same_loaded s₁ (.inr (.inr (.inl rfl))) ra (s₁.guest.cpu.readFp ra)
  rw [← hs₁.guest]
  exact .of_kept hs₂.toKept hs₂.flush (exec_loadFp (hs.same hs₁).state .rdx ra)
    (.storeMemory ((hs.same hs₁).same hs₂) rb displacement .quad false rfl)

/-- **Compiled memory operations are correct.** -/
theorem realizes_of_lower? (op : MemoryOp) {code : Code} (hs : Ready link s)
    (h : op.lower? pc ra rb displacement = some code) :
    Realizes link code pc (Operation.memory op).leavesLine s
      (op.run pc ra rb displacement s.guest) := by
  by_cases hreg : (Operation.memory op).registerOnly = true
  · obtain ⟨code', hcode, hnative⟩ := native_of_registerOnly hreg hs ra rb displacement
    cases hcode.symm.trans h
    exact hnative.realizes hs
  cases op with
  | loadAddress | loadAddressHigh | jump | barrier => exact absurd rfl hreg
  | load size =>
    cases h
    exact realizes_loadToInt hs size false
  | loadUnaligned =>
    cases h
    exact realizes_loadToInt hs .quad true
  | store size =>
    cases h
    exact realizes_store hs size false
  | storeUnaligned =>
    cases h
    exact realizes_store hs .quad true
  | floatLoad precision =>
    cases precision with
    | single => cases h
    | double => exact realizes_floatLoad hs h
  | floatStore precision =>
    cases precision with
    | single => cases h
    | double => exact realizes_floatStore hs h
  | loadLocked | storeConditional | readCycles | exchangeFlag | privileged => cases h

end MemoryOp

end AlphaMachine
