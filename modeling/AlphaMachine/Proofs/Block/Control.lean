import AlphaMachine.Proofs.Block.Operate

/-!
# Compiled branches, jumps and address arithmetic

Branches and jumps leave the block with the address of the next instruction in `rax`; address
arithmetic adds a sign-extended displacement to a register.

* `BranchOp.native_lower` : branches;
* `MemoryOp.native_jump` : the jump group, which reads its target before it links;
* `Block.exec_address` : the sum of a register and a displacement.
-/

namespace AlphaMachine

open Host

/-! ### Displacements -/

theorem immediate_toInt32 (displacement : Int16) :
    immediate displacement.toInt32 = displacementWord displacement := by
  rw [immediate, displacementWord, Int16.toInt64_toInt32]

theorem toInt_shiftLeft_16 (displacement : Int16) :
    (displacement.toInt32 <<< 16).toInt = displacement.toInt * 65536 := by
  have hlo := displacement.le_toInt
  have hhi := displacement.toInt_lt
  have hext : displacement.toInt32.toBitVec.toInt = displacement.toInt :=
    Int16.toInt_toInt32 displacement
  have hcond := BitVec.toInt_eq_toNat_cond displacement.toInt32.toBitVec
  have hshift : (displacement.toInt32 <<< 16).toInt =
      ((displacement.toInt32.toBitVec.toNat <<< 16 : Nat) : Int).bmod (2 ^ 32) :=
    BitVec.toInt_shiftLeft
  rw [hshift, Nat.shiftLeft_eq, Int.bmod_def]
  split at hcond <;> omega

theorem immediate_shiftLeft (displacement : Int16) :
    immediate (displacement.toInt32 <<< 16) = displacementWord displacement <<< 16 := by
  have hleft := toNat_toUInt64_eq_emod (displacement.toInt32 <<< 16).toInt64
  have hright := toNat_toUInt64_eq_emod displacement.toInt64
  rw [Int32.toInt_toInt64, toInt_shiftLeft_16] at hleft
  rw [Int16.toInt_toInt64] at hright
  have hshift : (displacementWord displacement <<< 16).toNat =
      (displacementWord displacement).toNat * 65536 % 2 ^ 64 := by
    rw [UInt64.toNat_shiftLeft]
    exact congrArg (· % 2 ^ 64) (Nat.shiftLeft_eq _ _)
  rw [← UInt64.toNat_inj, hshift]
  unfold immediate displacementWord
  omega

namespace Block

variable {link : Linkage} {s : Host.State} {pc : UInt64} {rest : Code}

/-- The sum of a register and an offset; an offset of zero is not added. -/
theorem exec_address (hs : Ready link s) {dst : Gpr} (hdst : dst = .rax ∨ dst = .rsi) (rb : Reg)
    (offset : Int32) :
    ∃ s', exec link (Block.address dst rb offset ++ rest) s = exec link rest s' ∧
      s'.gpr dst = s.guest.cpu.readInt rb + immediate offset ∧ s'.gpr .rdx = s.gpr .rdx ∧
      Same s s' := by
  let s₁ := loaded s dst rb (s.guest.cpu.readInt rb)
  have hs₁ : Same s s₁ := same_loaded s (by rcases hdst with rfl | rfl <;> simp) rb _
  have hload (code : Code) : exec link (loadInt dst rb ++ code) s = exec link code s₁ :=
    exec_loadInt hs.state dst rb
  unfold Block.address
  rw [List.append_assoc, hload]
  by_cases hoffset : offset = 0
  · have hzero : immediate (0 : Int32) = 0 := by decide
    subst hoffset
    refine ⟨s₁, rfl, ?_, ?_, hs₁⟩
    · rw [hzero, UInt64.add_zero]
      exact if_pos rfl
    · rcases hdst with rfl | rfl <;> rfl
  · rw [if_neg hoffset]
    refine ⟨_, exec_of_steps rfl, ?_, ?_, hs₁.trans ?_⟩
    · rcases hdst with rfl | rfl <;> rfl
    · rcases hdst with rfl | rfl <;> rfl
    · rcases hdst with rfl | rfl <;> exact ⟨⟨rfl, rfl, rfl, rfl⟩, rfl, rfl⟩

theorem steps_floatTest (link : Linkage) (condition : FloatCondition) (s : Host.State) :
    ∃ s', steps link condition.test s = some s' ∧
      s'.flags = condition.testFlags (s.gpr .rax) s.flags ∧ Same s s' := by
  cases condition <;> exact ⟨_, rfl, rfl, ⟨⟨rfl, rfl, rfl, rfl⟩, rfl, rfl⟩⟩

/-- The two ways out of a branch. -/
theorem Completes.branchOn {cond : Cond} {taken : Bool} (hcond : cond.holds? s.flags = some taken)
    (target : UInt64) :
    Completes link (Block.branchOn pc cond target) pc true s s.guest
      (if taken then .jump target else .next) := by
  refine .exit (exec_branchOn pc hcond target) ⟨rfl, rfl, rfl, rfl⟩ rfl rfl ?_ ?_
  · cases taken <;> nofun
  · cases taken <;> rfl

end Block

open Block

variable {link : Linkage} {s : Host.State} {pc : UInt64} {ra rb : Reg}

namespace MemoryOp

theorem native_address (hs : Ready link s) {offset : Int32} {value : UInt64}
    (hvalue : immediate offset = value) :
    Native link (Block.address .rax rb offset ++ storeInt ra .rax) pc false s
      (s.guest.returnInt ra (s.guest.cpu.readInt rb + value)) := by
  obtain ⟨s', hexec, hrax, -, hsame⟩ := exec_address hs (.inl rfl) rb offset
  rw [← hvalue, ← hsame.guest]
  refine .of_same hsame hexec (.storeInt (hs.same hsame) ra .rax ?_)
  rw [hrax, hsame.guest]

/-- The jump group: the target is read before the link is written. -/
theorem native_jump (hs : Ready link s) (displacement : Int16) :
    Native link (loadInt .rax rb ++ instrs [.aluImm .and .qword .rax (-4), .movImm .rcx (pc + 4)] ++
        storeInt ra .rcx ++ [Line.jump Label.exit]) pc true s
      (jump.run pc ra rb displacement s.guest) := by
  obtain ⟨s₂, hsteps, hrax, hrcx, hs₂⟩ : ∃ s₂,
      steps link [.aluImm .and .qword .rax (-4), .movImm .rcx (pc + 4)]
        (loaded s .rax rb (s.guest.cpu.readInt rb)) = some s₂ ∧
      s₂.gpr .rax = s.guest.cpu.readInt rb &&& ~~~3 ∧ s₂.gpr .rcx = pc + 4 ∧ Same s s₂ :=
    ⟨_, rfl, rfl, rfl, ⟨⟨rfl, rfl, rfl, rfl⟩, rfl, rfl⟩⟩
  have hexec : exec link (storeInt ra .rcx ++ [Line.jump Label.exit]) s₂ =
      some (some .exit, { s₂ with guest := s₂.guest.writeInt ra (pc + 4) }) := by
    rw [exec_storeInt (hs.same hs₂).state, hrcx]
    rfl
  simp only [List.append_assoc]
  refine Native.of_same hs₂ ?_ (Completes.exit hexec ⟨rfl, rfl, rfl, rfl⟩ ?_ rfl nofun hrax)
  · rw [exec_loadInt hs.state, exec_of_steps hsteps]
  · rw [hs₂.guest]

end MemoryOp

namespace BranchOp

theorem native_link (hs : Ready link s) (displacement : Int) :
    Native link (BranchOp.link.lower pc ra displacement) pc true s
      (BranchOp.link.run pc ra displacement s.guest) := by
  let target := branchTarget pc displacement
  let s₁ := s.set .rax (pc + 4)
  have hs₁ : Same s s₁ := ⟨⟨rfl, rfl, rfl, rfl⟩, rfl, rfl⟩
  have hexec : exec link (storeInt ra .rax ++ exitTo target) s₁ =
      some (some .exit, { s₁ with guest := s₁.guest.writeInt ra (pc + 4) }.set .rax target) := by
    rw [exec_storeInt (hs.same hs₁).state]
    rfl
  simp only [lower, List.append_assoc]
  exact Native.of_same hs₁ (exec_of_steps rfl)
    (Completes.exit hexec ⟨rfl, rfl, rfl, rfl⟩ rfl rfl nofun rfl)

theorem native_onInt (condition : Condition) (hs : Ready link s) (displacement : Int) :
    Native link ((onInt condition).lower pc ra displacement) pc true s
      ((onInt condition).run pc ra displacement s.guest) := by
  let a := s.guest.cpu.readInt ra
  let s₁ := loaded s .rax ra a
  let s₂ := { s₁ with flags := condition.testFlags a s₁.flags }
  have hs₂ : Same s s₂ := ⟨⟨rfl, rfl, rfl, rfl⟩, rfl, rfl⟩
  have hsteps : steps link [condition.test .rax] s₁ = some s₂ := by
    rw [steps_cons, Condition.step_test]
    rfl
  have hcond : condition.cond.holds? s₂.flags = some (condition.holds a) :=
    condition.holds?_cond a s₁.flags
  simp only [lower, List.append_assoc]
  refine Native.of_same hs₂ ?_ (Completes.branchOn hcond _)
  rw [exec_loadInt hs.state]
  exact exec_of_steps hsteps

theorem native_onFloat (condition : FloatCondition) (hs : Ready link s) (displacement : Int) :
    Native link ((onFloat condition).lower pc ra displacement) pc true s
      ((onFloat condition).run pc ra displacement s.guest) := by
  simp only [lower, List.append_assoc]
  refine .checkFp hs (by simp [branchOn, exitTo]) fun s₁ hs₁ => ?_
  let image := s₁.guest.cpu.readFp ra
  obtain ⟨s₂, hsteps, hflags, hs₂⟩ := steps_floatTest link condition (loaded s₁ .rax ra image)
  have hcond : condition.cond.holds? s₂.flags = some (condition.holds image) := by
    rw [hflags]
    exact condition.holds?_cond image _
  have hsame : Same s₁ s₂ := (same_loaded s₁ (.inl rfl) ra image).trans hs₂
  rw [← hs₁.guest]
  refine Native.of_same hsame ?_ (hsame.guest ▸ Completes.branchOn hcond _)
  rw [exec_loadFp (hs.same hs₁).state]
  exact exec_of_steps hsteps

/-- **Compiled branches are correct.** -/
theorem native_lower (op : BranchOp) (hs : Ready link s) (displacement : Int) :
    Native link (op.lower pc ra displacement) pc true s (op.run pc ra displacement s.guest) := by
  cases op with
  | link => exact native_link hs displacement
  | onInt condition => exact native_onInt condition hs displacement
  | onFloat condition => exact native_onFloat condition hs displacement

end BranchOp

end AlphaMachine
