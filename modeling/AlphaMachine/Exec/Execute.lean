import AlphaMachine.Exec.Float
import AlphaMachine.Exec.Integer
import AlphaMachine.Exec.Memory
import AlphaMachine.Isa.OperationTable

/-!
# Executing an instruction word

Branches and PAL calls, and `execute`: decode a word, look up its operation and apply it.  A word
without an operation is an illegal instruction.
-/

namespace AlphaMachine

/-- The effect of a branch at `pc`. -/
def BranchOp.run (op : BranchOp) (pc : UInt64) (ra : Reg) (displacement : Int) (m : Machine) :
    Outcome :=
  let target := branchTarget pc displacement
  match op with
  | .link => .done (m.writeInt ra (pc + 4)) (.jump target)
  | .onInt condition =>
    .done m (if condition.holds (m.cpu.readInt ra) then .jump target else .next)
  | .onFloat condition =>
    m.requireFp pc (.done m (if condition.holds (m.cpu.readFp ra) then .jump target else .next))

namespace PalOp

/-- The register in which a PAL call returns a value. -/
def valueRegister : Reg := 0

/-- The register in which a PAL call takes its argument. -/
def argumentRegister : Reg := 16

/-- The effect of a PAL call at `pc`. -/
def run (op : PalOp) (pc : UInt64) (m : Machine) : Outcome :=
  match op with
  | .halt =>
    if m.cpu.mode = .kernel then .done { m with cpu.halted := true } .next
    else m.raise .privilegeViolation pc
  | .breakpoint => m.raise .breakpoint pc
  | .systemCall => m.raise .softwareInterrupt pc
  | .flushCode => .done m .flush
  | .readUnique => m.returnInt valueRegister m.cpu.unique
  | .writeUnique => .done { m with cpu.unique := m.cpu.readInt argumentRegister } .next
  | .generateTrap => m.raise .generated pc

end PalOp

/-- Apply an operation to the instruction it was found for. -/
def Operation.run (op : Operation) (pc : UInt64) (i : Instruction) (m : Machine) : Outcome :=
  match op, i with
  | .operate op, .operate _ ra rb _ rc => op.run pc ra rb rc m
  | .float op, .floatOperate _ fa fb function fc => op.run pc fa fb function fc m
  | .memory op, .memory _ ra rb displacement => op.run pc ra rb displacement m
  | .branch op, .branch _ ra displacement => op.run pc ra displacement m
  | .pal op, .pal _ => op.run pc m
  | _, _ => m.raise .illegalInstruction pc

/-- Execute a decoded instruction as the instruction at `pc`. -/
def Instruction.execute (i : Instruction) (pc : UInt64) (m : Machine) : Outcome :=
  match Operation.ofInstruction? i with
  | some op => op.run pc i m
  | none => m.raise .illegalInstruction pc

theorem Instruction.execute_of_some {i : Instruction} {op : Operation}
    (hop : Operation.ofInstruction? i = some op) (pc : UInt64) (m : Machine) :
    i.execute pc m = op.run pc i m := by
  rw [execute, hop]

/-- Execute a word as the instruction at `pc`. -/
def execute (word : UInt32) (pc : UInt64) (m : Machine) : Outcome :=
  (Instruction.decode word).execute pc m

theorem execute_of_operation {word : UInt32} {op : Operation}
    (hop : Operation.ofInstruction? (.decode word) = some op) (pc : UInt64) (m : Machine) :
    execute word pc m = op.run pc (.decode word) m :=
  Instruction.execute_of_some hop pc m

theorem execute_of_none {word : UInt32} (hop : Operation.ofInstruction? (.decode word) = none)
    (pc : UInt64) (m : Machine) : execute word pc m = m.raise .illegalInstruction pc := by
  rw [execute, Instruction.execute, hop]

end AlphaMachine
