import AlphaMachine.Proofs.Engine.Events
import AlphaMachine.Proofs.Exec.Frame

/-!
# Runs and what can be seen of them

What can be seen of a run from outside is a `View`: the machine, the number of traps raised so far
and how the run ended.  How a step treats traps and the end of execution depends on little of the
control (`Control.Alike`), so engines with alike controls cannot be told apart while they
interpret (`Engine.view_interpretOne`).

A run without translation interprets one instruction after the other (`Engine.step_plain`): it
keeps the extent of the memory and, unless it ends, does not halt (`Engine.ongoing_stateAt`).
-/

namespace AlphaMachine

/-- Controls that raise traps in the same way, and have raised the same number of them. -/
structure Control.Alike (c c' : Control) : Prop where
  /-- They stop on traps or both go on. -/
  stopOnTrap : c'.settings.stopOnTrap = c.settings.stopOnTrap
  /-- Their handlers are at the same addresses. -/
  trapVectorBase : c'.settings.trapVectorBase = c.settings.trapVectorBase
  /-- They have raised the same number of traps. -/
  traps : c'.stats.traps = c.stats.traps

namespace Control

theorem Alike.refl (c : Control) : c.Alike c := ⟨rfl, rfl, rfl⟩

theorem Alike.symm {c c' : Control} (h : c.Alike c') : c'.Alike c :=
  ⟨h.stopOnTrap.symm, h.trapVectorBase.symm, h.traps.symm⟩

theorem Alike.trans {c₁ c₂ c₃ : Control} (h : c₁.Alike c₂) (h' : c₂.Alike c₃) : c₁.Alike c₃ :=
  ⟨h'.stopOnTrap.trans h.stopOnTrap, h'.trapVectorBase.trans h.trapVectorBase,
    h'.traps.trans h.traps⟩

theorem Keeps.alike {c c' : Control} (h : c.Keeps c') : c.Alike c' :=
  ⟨congrArg Settings.stopOnTrap h.settings, congrArg Settings.trapVectorBase h.settings, h.traps⟩

theorem settings_retire (c : Control) (flush endsBlock : Bool) :
    (Engine.retire c flush endsBlock).settings = c.settings := by
  cases flush <;> simp only [Engine.retire, Bool.false_eq_true, if_false, if_true] <;> split <;> rfl

theorem traps_retire (c : Control) (flush endsBlock : Bool) :
    (Engine.retire c flush endsBlock).stats.traps = c.stats.traps := by
  cases flush <;> simp only [Engine.retire, Bool.false_eq_true, if_false, if_true] <;> split <;> rfl

theorem alike_retire (c : Control) (flush endsBlock : Bool) :
    c.Alike (Engine.retire c flush endsBlock) := by
  have hs := settings_retire c flush endsBlock
  exact ⟨congrArg Settings.stopOnTrap hs, congrArg Settings.trapVectorBase hs,
    traps_retire c flush endsBlock⟩

end Control

namespace Engine

/-! ### Views -/

/-- What can be seen of a run. -/
structure View where
  /-- The machine. -/
  machine : Machine
  /-- The number of traps raised so far. -/
  traps : Nat
  /-- How the run ended, if it did. -/
  exit : Option Exit

/-- The view of a state of a run. -/
def view (r : Engine × Option Exit) : View := ⟨r.1.machine, r.1.control.stats.traps, r.2⟩

variable {m : Machine} {c c' : Control}

theorem view_raise (h : c.Alike c') (m : Machine) (trap : Trap) :
    view (raise ⟨m, c'⟩ trap) = view (raise ⟨m, c⟩ trap) := by
  unfold raise
  dsimp only [Control.enterBlock]
  rw [h.stopOnTrap, h.trapVectorBase]
  split <;> simp only [view, h.traps]

theorem view_settle (h : c.Alike c') (m : Machine) :
    view (settle ⟨m, c'⟩) = view (settle ⟨m, c⟩) := by
  simp only [settle, view, h.traps]

theorem settings_raise (m : Machine) (c : Control) (trap : Trap) :
    (raise ⟨m, c⟩ trap).1.control.settings = c.settings := by
  unfold raise
  dsimp only
  split <;> rfl

/-- What is interpreted, if the instruction can be fetched. -/
theorem interpretOne_of_fetch {word : UInt32} (h : Control.fetch m.mem m.cpu.pc = .ok word)
    (c : Control) :
    interpretOne ⟨m, c⟩ =
      match execute word m.cpu.pc m with
      | .trapped m' trap => raise ⟨m', c⟩ trap
      | .done m' flow =>
        settle ⟨advance m' (flow.nextPc m.cpu.pc) 1,
          retire c (flow = .flush) (Instruction.decode word).endsBlock⟩ := by
  unfold interpretOne
  dsimp only
  rw [h]
  rfl

theorem interpretOne_of_fault {fault : MemoryFault}
    (h : Control.fetch m.mem m.cpu.pc = .error fault) (c : Control) :
    interpretOne ⟨m, c⟩ = raise ⟨m, c⟩ (Trap.ofFault fault m.cpu.pc) := by
  simp only [interpretOne, h]

/-- A branch that is interpreted at a block entry leads to another one. -/
theorem step_of_branch {word : UInt32} {target : UInt64} (hh : m.cpu.halted = false)
    (ha : c.atBlockEntry = true)
    (hv : Control.visit { c with atBlockEntry := false, runLength := 0 } m.mem m.cpu.pc =
      (none, c'))
    (hfetch : Control.fetch m.mem m.cpu.pc = .ok word)
    (hexecute : execute word m.cpu.pc m = .done m (.jump target))
    (hends : (Instruction.decode word).endsBlock = true) :
    step ⟨m, c⟩ = (⟨advance m target 1, retire c' false true⟩, none) := by
  rw [step_of_visit hh ha hv]
  show interpretOne ⟨m, c'⟩ = _
  rw [interpretOne_of_fetch hfetch, hexecute, hends]
  show (_, if m.cpu.halted then some Exit.halted else none) = _
  rw [hh]
  rfl

/-- **Engines with alike controls cannot be told apart while they interpret.** -/
theorem view_interpretOne (h : c.Alike c') (m : Machine) :
    view (interpretOne ⟨m, c'⟩) = view (interpretOne ⟨m, c⟩) := by
  cases hf : Control.fetch m.mem m.cpu.pc with
  | error fault =>
    rw [interpretOne_of_fault hf, interpretOne_of_fault hf]
    exact view_raise h ..
  | ok word =>
    rw [interpretOne_of_fetch hf, interpretOne_of_fetch hf]
    cases execute word m.cpu.pc m with
    | trapped m' trap => exact view_raise h ..
    | done m' flow =>
      exact view_settle
        ((Control.alike_retire ..).symm.trans (h.trans (Control.alike_retire ..))) _

theorem settings_interpretOne (m : Machine) (c : Control) :
    (interpretOne ⟨m, c⟩).1.control.settings = c.settings := by
  cases hf : Control.fetch m.mem m.cpu.pc with
  | error fault =>
    rw [interpretOne_of_fault hf]
    exact settings_raise ..
  | ok word =>
    rw [interpretOne_of_fetch hf]
    cases execute word m.cpu.pc m with
    | trapped m' trap => exact settings_raise ..
    | done m' flow => exact Control.settings_retire ..

/-! ### States of a run -/

/-- The state after `n` steps, or at the end if that comes before. -/
def stateAt (e : Engine) (n : Nat) : Engine := (e.runFor n).1

theorem runFor_succ (e : Engine) (n : Nat) :
    e.runFor (n + 1) = match e.runFor n with
      | (e', some exit) => (e', some exit)
      | (e', none) => e'.step := by
  induction n generalizing e with
  | zero =>
    simp only [runFor]
    split <;> simp_all
  | succ n ih =>
    rw [runFor]
    conv_rhs => rw [runFor]
    split
    · rfl
    · exact ih _

theorem runFor_succ_of_none {e : Engine} {n : Nat} (h : (e.runFor n).2 = none) :
    e.runFor (n + 1) = (e.stateAt n).step := by
  rw [runFor_succ, stateAt]
  split
  · next heq => rw [heq] at h; cases h
  · next heq => rw [heq]

theorem runFor_add_of_some {e : Engine} {n : Nat} {exit : Exit} (h : (e.runFor n).2 = some exit)
    (k : Nat) : e.runFor (n + k) = e.runFor n := by
  induction k with
  | zero => rfl
  | succ k ih =>
    rw [← Nat.add_assoc, runFor_succ, ih]
    split
    · next heq => exact heq.symm
    · next heq => rw [heq] at h; cases h

/-- A run that has not ended had not ended before. -/
theorem running_of_le {e : Engine} {k n : Nat} (hk : k ≤ n) (h : (e.runFor n).2 = none) :
    (e.runFor k).2 = none := by
  cases hx : (e.runFor k).2 with
  | none => rfl
  | some exit =>
    have hn := runFor_add_of_some hx (n - k)
    rw [Nat.add_sub_of_le hk] at hn
    rw [hn, hx] at h
    cases h

/-! ### Runs without translation -/

/-- Without translation, a step interprets one instruction. -/
theorem step_plain {e : Engine} (hj : e.control.settings.jit = false)
    (hh : e.machine.cpu.halted = false) :
    ∃ c : Control, c.settings = e.control.settings ∧ e.control.Alike c ∧
      e.step = interpretOne ⟨e.machine, c⟩ := by
  obtain ⟨m, c⟩ := e
  by_cases ha : c.atBlockEntry = true
  · refine ⟨{ c with atBlockEntry := false, runLength := 0 }, rfl, ⟨rfl, rfl, rfl⟩, ?_⟩
    simp only at hj hh
    simp [step, hh, ha, Control.visit, hj]
  · refine ⟨c, rfl, Control.Alike.refl c, ?_⟩
    simp only at hh
    simp [step, hh, ha]

/-- A state of a run that has not ended: nothing is halted, the settings and the extent of the
memory are those of the beginning. -/
structure Ongoing (p q : Engine) : Prop where
  /-- The settings are those of the beginning. -/
  settings : q.control.settings = p.control.settings
  /-- The machine is not halted. -/
  halted : q.machine.cpu.halted = false
  /-- The mapped range is that of the beginning. -/
  base : q.machine.mem.base = p.machine.mem.base
  /-- The mapped range is that of the beginning. -/
  size : q.machine.mem.size = p.machine.mem.size

theorem Ongoing.raise {p : Engine} (h : Ongoing p ⟨m, c⟩) (trap : Trap) :
    Ongoing p (raise ⟨m, c⟩ trap).1 := by
  unfold Engine.raise
  dsimp only
  split <;> exact ⟨h.settings, h.halted, h.base, h.size⟩

theorem Ongoing.interpretOne {p : Engine} (h : Ongoing p ⟨m, c⟩)
    (hx : (interpretOne ⟨m, c⟩).2 = none) : Ongoing p (interpretOne ⟨m, c⟩).1 := by
  cases hf : Control.fetch m.mem m.cpu.pc with
  | error fault =>
    rw [interpretOne_of_fault hf]
    exact h.raise _
  | ok word =>
    rw [interpretOne_of_fetch hf] at hx ⊢
    have hk := execute_keeps word m.cpu.pc m
    cases he : execute word m.cpu.pc m with
    | trapped m' trap =>
      rw [he] at hk
      have hq : Ongoing p ⟨m', c⟩ := ⟨h.settings, hk.1.halted.trans h.halted,
        hk.1.base.trans h.base, hk.1.size.trans h.size⟩
      exact hq.raise trap
    | done m' flow =>
      rw [he] at hk hx
      refine ⟨(Control.settings_retire ..).trans h.settings, ?_, hk.base.trans h.base,
        hk.size.trans h.size⟩
      cases hh : m'.cpu.halted with
      | false => exact hh
      | true =>
        have hsome : (some Exit.halted : Option Exit) = none := by
          simpa only [settle, advance, hh, if_true] using hx
        cases hsome

/-- Every state of a run without translation that has not ended is ongoing. -/
theorem ongoing_stateAt {p : Engine} (hj : p.control.settings.jit = false)
    (hh : p.machine.cpu.halted = false) {n : Nat} (hn : (p.runFor n).2 = none) :
    Ongoing p (p.stateAt n) := by
  induction n with
  | zero => exact ⟨rfl, hh, rfl, rfl⟩
  | succ n ih =>
    have hn' := running_of_le (Nat.le_succ n) hn
    have hq := ih hn'
    obtain ⟨c, hc, -, hstep⟩ :=
      step_plain ((congrArg Settings.jit hq.settings).trans hj) hq.halted
    rw [runFor_succ_of_none hn', hstep] at hn
    rw [stateAt, runFor_succ_of_none hn', hstep]
    exact Ongoing.interpretOne ⟨hc.trans hq.settings, hq.halted, hq.base, hq.size⟩ hn

/-- The view of the state after one more step of a run without translation. -/
theorem view_runFor_succ {p : Engine} (hj : p.control.settings.jit = false)
    (hh : p.machine.cpu.halted = false) {n : Nat} (hn : (p.runFor n).2 = none) {c : Control}
    (hc : (p.stateAt n).control.Alike c) :
    view (p.runFor (n + 1)) = view (interpretOne ⟨(p.stateAt n).machine, c⟩) := by
  have hq := ongoing_stateAt hj hh hn
  obtain ⟨c', -, hc', hstep⟩ := step_plain ((congrArg Settings.jit hq.settings).trans hj) hq.halted
  rw [runFor_succ_of_none hn, hstep]
  exact view_interpretOne (hc.symm.trans hc') _

end Engine

end AlphaMachine
