import AlphaMachine.Proofs.Block.Control
import AlphaMachine.Proofs.Block.Translation

/-!
# Compiled code that stays in registers

Integer operations, address arithmetic, branches, jumps and barriers have host code that reads and
writes guest registers only.  `Block.native_registerOnly` says that the code of every such word has
exactly the effect of executing the word.
-/

namespace AlphaMachine

open Block

/-- Operations whose code neither calls the interpreter nor accesses memory or floating numbers:
it moves values between guest registers and decides branches. -/
def Operation.registerOnly : Operation → Bool
  | .operate op =>
    match op with
    | .zap | .zapNot | .byteField .. | .countOnes | .countLeadingZeros | .countTrailingZeros
    | .moveFromFloat _ => false
    | _ => true
  | .memory .loadAddress | .memory .loadAddressHigh | .memory .jump | .memory .barrier => true
  | .branch _ => true
  | _ => false

variable {link : Linkage} {s : Host.State} {pc : UInt64}

theorem OperateOp.exists_lower? {op : OperateOp} (h : (Operation.operate op).registerOnly = true)
    (pc : UInt64) (ra : Reg) (rb : Operand) (rc : Reg) :
    ∃ code, op.lower? pc ra rb rc = some code := by
  cases op with
  | moveIf condition =>
    simp only [lower?]
    split <;> exact ⟨_, rfl⟩
  | zap | zapNot | byteField | countOnes | countLeadingZeros | countTrailingZeros
  | moveFromFloat => cases h
  | _ => exact ⟨_, rfl⟩

theorem MemoryOp.native_of_registerOnly {op : MemoryOp}
    (h : (Operation.memory op).registerOnly = true) (hs : Ready link s) (ra rb : Reg)
    (displacement : Int16) :
    ∃ code, op.lower? pc ra rb displacement = some code ∧
      Native link code pc (Operation.memory op).leavesLine s
        (op.run pc ra rb displacement s.guest) := by
  cases op with
  | loadAddress => exact ⟨_, rfl, native_address hs (immediate_toInt32 displacement)⟩
  | loadAddressHigh => exact ⟨_, rfl, native_address hs (immediate_shiftLeft displacement)⟩
  | jump => exact ⟨_, rfl, native_jump hs displacement⟩
  | barrier => exact ⟨_, rfl, Completes.next exec_nil (Kept.refl s) rfl rfl⟩
  | _ => cases h

theorem Operation.Fits.native_of_registerOnly {op : Operation} {i : Instruction}
    (hfits : op.Fits i) (pc : UInt64) (h : op.registerOnly = true) (hs : Ready link s) :
    ∃ code, op.lower? pc i = some code ∧
      Native link code pc op.leavesLine s (op.run pc i s.guest) := by
  cases hfits with
  | operate op opcode ra rb function rc =>
    obtain ⟨code, hcode⟩ := op.exists_lower? h pc ra rb rc
    exact ⟨code, hcode, op.native_of_lower? hcode hs⟩
  | memory op opcode ra rb displacement => exact op.native_of_registerOnly h hs ra rb displacement
  | branch op opcode ra displacement => exact ⟨_, rfl, op.native_lower hs displacement⟩
  | float | pal => cases h

/-- **Compiled code that stays in registers is correct.**  A word whose operation only moves values
between guest registers has code of its own, and from any state of the host inside a block the code
has exactly the effect of executing the word: it runs to its end, leaves for the next address, or
leaves for the exit of the trap that the instruction raises, which then fills the pending slot. -/
theorem Block.native_registerOnly {word : UInt32} {op : Operation}
    (hop : Operation.ofInstruction? (.decode word) = some op) (hreg : op.registerOnly = true)
    (pc : UInt64) {link : Linkage} {s : Host.State} (hs : Ready link s) :
    ∃ code, op.lower? pc (.decode word) = some code ∧ lowerWord? pc word = some code ∧
      Native link code pc (endsAt word) s (execute word pc s.guest) ∧
      Realizes link code pc (endsAt word) s (execute word pc s.guest) := by
  obtain ⟨code, hcode, hnative⟩ :=
    (Operation.fits_decode hop).native_of_registerOnly pc hreg hs
  have hlower : lowerWord? pc word = some code := by
    simp only [lowerWord?_eq, hop, Option.map_some, hcode, Option.getD_some]
  have hexecute := execute_of_operation hop pc s.guest
  have hends : op.leavesLine = endsAt word := Operation.leavesLine_eq hop
  rw [hends, ← hexecute] at hnative
  exact ⟨code, hcode, hlower, hnative, hnative.realizes hs⟩

/-- A machine about to add two longwords whose sum does not fit. -/
def Block.overflowing : Machine :=
  ⟨((Processor.startingAt 0x10000).writeInt 1 0x7FFFFFFF).writeInt 2 1, .zeroed 0 0⟩

/-- The hypotheses can be met, here by a checked sum that traps. -/
theorem Block.native_registerOnly_checkedSum :
    Operation.ofInstruction? (.decode 0x40220803) = some (.operate (.arithChecked .add .long)) ∧
      Ready plainLinkage (inside plainLinkage overflowing) ∧
      execute 0x40220803 0x10000 overflowing = overflowing.raise .integerOverflow 0x10000 ∧
      ∃ code, (Operation.operate (.arithChecked .add .long)).lower? 0x10000 (.decode 0x40220803) =
          some code ∧ lowerWord? 0x10000 0x40220803 = some code ∧
        Native plainLinkage code 0x10000 (endsAt 0x40220803) (inside plainLinkage overflowing)
          (execute 0x40220803 0x10000 overflowing) ∧
        Realizes plainLinkage code 0x10000 (endsAt 0x40220803) (inside plainLinkage overflowing)
          (execute 0x40220803 0x10000 overflowing) := by
  have hop : Operation.ofInstruction? (.decode 0x40220803) =
      some (.operate (.arithChecked .add .long)) :=
    Operation.ofInstruction?_of_registered ⟨.intA, some 0x40⟩ rfl (by decide)
  have hready : Ready plainLinkage (inside plainLinkage overflowing) := ready_inside _ rfl
  have htrap : execute 0x40220803 0x10000 overflowing =
      overflowing.raise .integerOverflow 0x10000 := by
    rw [execute_of_operation hop]
    decide
  exact ⟨hop, hready, htrap, native_registerOnly hop rfl 0x10000 hready⟩

end AlphaMachine
