import AlphaMachine.Proofs.Block.Fragments

/-!
# Code that has the effect of an outcome

What it means that the code of one instruction does what the instruction does.  A completed
instruction runs off the end of its code or, if it ends the block, leaves it with the next address
in `rax`.  A trap can leave the code in two ways:

* `Block.Native` : for the exit of its kind, before anything was changed;
* `Block.Realizes` : for any exit that in the end leaves the trap in the pending slot and the
  address of the instruction in `rax`.

The first is the sharper one (`Native.realizes`).
-/

namespace AlphaMachine

namespace Block

open Host

/-- The code completes the instruction at `pc` with a machine and a way to continue. -/
def Completes (link : Linkage) (code : Code) (pc : UInt64) (endsBlock : Bool) (s : Host.State)
    (m : Machine) (flow : Flow) : Prop :=
  ∃ s', exec link code s = some (if endsBlock then some .exit else none, s') ∧ Kept s s' ∧
    s'.guest = m ∧ s'.flush = (s.flush || flow = .flush) ∧
    if endsBlock then s'.gpr .rax = flow.nextPc pc else flow = .next

/-- The code has the effect of an outcome, and traps through the exit of their kind. -/
def Native (link : Linkage) (code : Code) (pc : UInt64) (endsBlock : Bool) (s : Host.State) :
    Outcome → Prop
  | .done m flow => Completes link code pc endsBlock s m flow
  | .trapped m trap =>
    m = s.guest ∧ trap = ⟨trap.kind, pc, none⟩ ∧
      ∃ s', exec link code s = some (some (.trap pc (some trap.kind)), s') ∧ Same s s'

/-- Take the way out of a trap, if that is where execution left for. -/
def finish (link : Linkage) : Position → Option Position
  | (some (.trap pc kind), s) => execFrom link (trapExit pc kind) (some (.trap pc kind), s)
  | position => some position

/-- The code has the effect of an outcome, and a trap is in the pending slot in the end. -/
def Realizes (link : Linkage) (code : Code) (pc : UInt64) (endsBlock : Bool) (s : Host.State) :
    Outcome → Prop
  | .done m flow => Completes link code pc endsBlock s m flow
  | .trapped m trap => ∃ position s',
    exec link code s = some position ∧ finish link position = some (some .exit, s') ∧ Kept s s' ∧
      s'.guest = pend m trap ∧ s'.flush = s.flush ∧ s'.gpr .rax = pc

variable {link : Linkage} {code code' : Code} {pc : UInt64} {endsBlock : Bool}
  {s s₁ s' : Host.State} {m : Machine} {flow : Flow} {o : Outcome}

/-- The exit of its kind leaves a trap in the pending slot. -/
theorem Native.realizes (hs : Ready link s) (h : Native link code pc endsBlock s o) :
    Realizes link code pc endsBlock s o := by
  cases o with
  | done m flow => exact h
  | trapped m trap =>
    obtain ⟨rfl, htrap, s', hexec, hsame⟩ := h
    have hstate : s'.gpr .rbx = link.state := hsame.rbx.trans hs.state
    refine ⟨_, _, hexec, execFrom_trapExit_some hstate pc trap.kind, ?_, ?_, hsame.flush, rfl⟩
    · exact ⟨hsame.rbx, hsame.rsp, hsame.r12, hsame.stack⟩
    · rw [htrap, ← hsame.guest]
      rfl

/-! ### Code after other code -/

/-- Code in front that keeps the frame of the block, whatever it does to the guest. -/
theorem Completes.of_kept (hkept : Kept s s₁) (hflush : s₁.flush = s.flush)
    (hexec : exec link code s = exec link code' s₁)
    (h : Completes link code' pc endsBlock s₁ m flow) :
    Completes link code pc endsBlock s m flow := by
  obtain ⟨s', he, hk, hg, hf, hend⟩ := h
  refine ⟨s', hexec.trans he, hkept.trans hk, hg, ?_, hend⟩
  rw [hf, hflush]

theorem Realizes.of_kept (hkept : Kept s s₁) (hflush : s₁.flush = s.flush)
    (hexec : exec link code s = exec link code' s₁)
    (h : Realizes link code' pc endsBlock s₁ o) : Realizes link code pc endsBlock s o := by
  cases o with
  | done m flow => exact Completes.of_kept hkept hflush hexec h
  | trapped m trap =>
    obtain ⟨position, s', he, hfinish, hk, hg, hf, hrax⟩ := h
    exact ⟨position, s', hexec.trans he, hfinish, hkept.trans hk, hg, hf.trans hflush, hrax⟩

/-- Code in front that only changes scratch registers and flags does not matter. -/
theorem Native.of_same (hsame : Same s s₁) (hexec : exec link code s = exec link code' s₁)
    (h : Native link code' pc endsBlock s₁ o) : Native link code pc endsBlock s o := by
  cases o with
  | done m flow => exact Completes.of_kept hsame.toKept hsame.flush hexec h
  | trapped m trap =>
    obtain ⟨hm, htrap, s', he, hs'⟩ := h
    exact ⟨hm.trans hsame.guest, htrap, s', hexec.trans he, hsame.trans hs'⟩

/-! ### The ways to end -/

/-- Off the end of the code. -/
theorem Completes.next (h : exec link code s = some (none, s')) (hk : Kept s s')
    (hg : s'.guest = m) (hf : s'.flush = s.flush) : Completes link code pc false s m .next :=
  ⟨s', h, hk, hg, by simpa using hf, rfl⟩

/-- To the exit, with an address. -/
theorem Completes.exit (h : exec link code s = some (some .exit, s')) (hk : Kept s s')
    (hg : s'.guest = m) (hf : s'.flush = s.flush) (hflow : flow ≠ .flush)
    (hrax : s'.gpr .rax = flow.nextPc pc) : Completes link code pc true s m flow :=
  ⟨s', h, hk, hg, by simpa [hflow] using hf, hrax⟩

/-- To the exit of a trap. -/
theorem Native.raise {kind : TrapKind} (hsame : Same s s')
    (h : exec link code s = some (some (.trap pc (some kind)), s')) :
    Native link code pc endsBlock s (s.guest.raise kind pc) :=
  ⟨rfl, rfl, s', h, hsame⟩

/-- The code of a floating instruction behind its check. -/
theorem Native.checkFp (hs : Ready link s) (hrest : Unbound (.trap pc (some .floatDisabled)) code)
    {k : Outcome} (h : ∀ s₁, Same s s₁ → Native link code pc endsBlock s₁ k) :
    Native link (Block.checkFp pc ++ code) pc endsBlock s (s.guest.requireFp pc k) := by
  obtain ⟨flags, hexec⟩ := exec_checkFp hs.state pc hrest
  have hsame : Same s { s with flags } := ⟨⟨rfl, rfl, rfl, rfl⟩, rfl, rfl⟩
  unfold Machine.requireFp
  by_cases hfp : s.guest.cpu.fpEnabled
  · rw [if_pos hfp] at hexec ⊢
    exact .of_same hsame hexec (h _ hsame)
  · rw [if_neg hfp] at hexec ⊢
    exact .raise hsame hexec

theorem Realizes.checkFp (hs : Ready link s) (hrest : Unbound (.trap pc (some .floatDisabled)) code)
    {k : Outcome} (h : ∀ s₁, Same s s₁ → Realizes link code pc endsBlock s₁ k) :
    Realizes link (Block.checkFp pc ++ code) pc endsBlock s (s.guest.requireFp pc k) := by
  obtain ⟨flags, hexec⟩ := exec_checkFp hs.state pc hrest
  have hsame : Same s { s with flags } := ⟨⟨rfl, rfl, rfl, rfl⟩, rfl, rfl⟩
  unfold Machine.requireFp
  by_cases hfp : s.guest.cpu.fpEnabled
  · rw [if_pos hfp] at hexec ⊢
    exact .of_kept hsame.toKept hsame.flush hexec (h _ hsame)
  · rw [if_neg hfp] at hexec ⊢
    exact (Native.raise hsame hexec).realizes hs

/-! ### Guest registers at the ends -/

/-- Instructions in a row, which only change scratch registers and flags. -/
theorem exec_of_steps {l : List Instr} {rest : Code} (h : steps link l s = some s') :
    exec link (instrs l ++ rest) s = exec link rest s' := by
  rw [exec_instrs, h, Option.bind_some]

/-- The code ends with a store to an integer register. -/
theorem Native.storeInt (hs : Ready link s) (r : Reg) (src : Gpr) {value : UInt64}
    (hsrc : s.gpr src = value) :
    Native link (Block.storeInt r src) pc false s (s.guest.returnInt r value) := by
  have hexec : exec link (Block.storeInt r src ++ []) s = _ := exec_storeInt hs.state r src
  rw [List.append_nil, hsrc, exec_nil] at hexec
  exact Completes.next hexec ⟨rfl, rfl, rfl, rfl⟩ rfl rfl

/-- The code ends with a store to a floating register. -/
theorem Native.storeFp (hs : Ready link s) (r : Reg) (src : Gpr) {value : UInt64}
    (hsrc : s.gpr src = value) :
    Native link (Block.storeFp r src) pc false s (s.guest.returnFp r value) := by
  have hexec : exec link (Block.storeFp r src ++ []) s = _ := exec_storeFp hs.state r src
  rw [List.append_nil, hsrc, exec_nil] at hexec
  exact Completes.next hexec ⟨rfl, rfl, rfl, rfl⟩ rfl rfl

/-! ### A state inside a block -/

/-- Some addresses; calls leave zeros in the registers they need not keep. -/
def plainLinkage : Linkage where
  state := 0x1000
  frame := 0x2000
  start := 0x10000
  cycles := 0
  address
    | .load => 1
    | .store => 2
    | .interpret => 3
    | .overflows => 4
  helperAt address :=
    if address = 1 then some .load
    else if address = 2 then some .store
    else if address = 3 then some .interpret
    else if address = 4 then some .overflows
    else none
  helperAt_address helper := by cases helper <;> rfl
  clobbered _ _ := 0
  clobberedXmm _ _ := ⟨0, 0⟩
  clobberedStack _ _ := 0

/-- A state of the host inside a block. -/
def inside (link : Linkage) (m : Machine) : Host.State where
  gpr
    | .rbx => link.state
    | .r12 => link.frame
    | _ => 0
  xmm _ := ⟨0, 0⟩
  flags := .undefined
  stack _ := 0
  guest := m
  flush := false

theorem ready_inside (link : Linkage) {m : Machine} (h : m.cpu.pendingTrap = 0) :
    Ready link (inside link m) := ⟨rfl, rfl, h⟩

end Block

end AlphaMachine
