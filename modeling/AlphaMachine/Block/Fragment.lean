import AlphaMachine.Exec.Integer
import AlphaMachine.Host.Code
import AlphaMachine.Machine.Layout

/-!
# Fragments of compiled code

The code of a block is entered with the address of the processor state in `rdi` and the address
of the run's frame in `rsi`, and returns the address at which execution continues in `rax`.
Inside the block

* `rbx` holds the address of the processor state and `r12` the address of the frame,
* `rax`, `rcx`, `rdx`, `rsi`, `rdi`, `xmm0` and `xmm1` are scratch registers,
* the stack is aligned to 16 bytes, so a helper can be called anywhere.

A trap is left in the pending slot of the processor state.  Its exit is out of line: the code
jumps to the label of the trap, and the exits of all traps stand behind the block.
-/

namespace AlphaMachine

namespace Block

/-- The labels of a block. -/
inductive Label where
  /-- The way out, with the next address in `rax`. -/
  | exit
  /-- The way out of a trap of the instruction at `pc`; without a kind, the pending slot is filled
  already. -/
  | trap (pc : UInt64) (kind : Option TrapKind)
  /-- The taken side of the conditional branch that ends the block. -/
  | taken
  deriving DecidableEq

/-- The functions that compiled code calls. -/
inductive Helper where
  /-- Load from guest memory. -/
  | load
  /-- Store to guest memory. -/
  | store
  /-- Execute one guest instruction. -/
  | interpret
  /-- Whether a sum or a difference overflows. -/
  | overflows
  deriving DecidableEq

/-- Symbolic code of a block. -/
abbrev Code := List (Host.Line Label Helper)

/-- Code without labels. -/
def instrs (l : List Host.Instr) : Code := l.map .instr

/-! ### Guest registers -/

/-- The displacement of a guest register or another field from `rbx`. -/
def field (offset : Nat) : Int32 := Int32.ofNat offset

/-- Load an integer register. -/
def loadInt (dst : Host.Gpr) (r : Reg) : Code :=
  instrs [if r = Reg.zero then .zero dst else .load dst .rbx (field (Layout.int r))]

/-- Store an integer register. -/
def storeInt (r : Reg) (src : Host.Gpr) : Code :=
  if r = Reg.zero then [] else instrs [.store .rbx (field (Layout.int r)) src]

/-- Load the image of a floating register. -/
def loadFp (dst : Host.Gpr) (r : Reg) : Code :=
  instrs [if r = Reg.zero then .zero dst else .load dst .rbx (field (Layout.fp r))]

/-- Store the image of a floating register. -/
def storeFp (r : Reg) (src : Host.Gpr) : Code :=
  if r = Reg.zero then [] else instrs [.store .rbx (field (Layout.fp r)) src]

/-- Load an operand. -/
def loadOperand (dst : Host.Gpr) : Operand → Code
  | .register r => loadInt dst r
  | .literal value => instrs [.movImm dst value.toUInt64]

/-! ### Traps -/

/-- Leave the block if a helper recorded a trap. -/
def checkPending (pc : UInt64) : Code :=
  [.instr (.cmpMem .rbx (field Layout.pendingTrap) 0), .jumpIf .ne (.trap pc none)]

/-- Raise a trap unless floating instructions are enabled. -/
def checkFp (pc : UInt64) : Code :=
  [.instr (.cmpMemByte .rbx (field Layout.fpEnabled) 0),
   .jumpIf .e (.trap pc (some .floatDisabled))]

/-! ### Calls and exits -/

/-- Call a helper. -/
def call (helper : Helper) : Code := [.address .rax helper, .instr (.callReg .rax)]

/-- Leave the block for `target`. -/
def exitTo (target : UInt64) : Code := [.instr (.movImm .rax target), .jump .exit]

/-- Execute the instruction `word` at `pc` by the helper, and leave the block if the instruction
ends it or traps. -/
def interpret (pc : UInt64) (word : UInt32) (endsBlock : Bool) : Code :=
  instrs [.mov .qword .rdi .r12, .movImm .rsi word.toUInt64, .movImm .rdx pc] ++
    call .interpret ++
    if endsBlock then [.jump .exit]
    else [.instr (.cmpMem .rbx (field Layout.pendingTrap) 0), .jumpIf .ne .exit]

/-- Leave for `target` if a condition holds, for the instruction behind `pc` otherwise. -/
def branchOn (pc : UInt64) (cond : Host.Cond) (target : UInt64) : Code :=
  .jumpIf cond .taken :: exitTo (pc + 4) ++ .bind .taken :: exitTo target

/-! ### Frame of a block -/

/-- Save what the caller expects to keep and take over the arguments. -/
def prologue : Code :=
  instrs [.push .rbx, .push .r12, .aluImm .sub .qword .rsp 8, .mov .qword .rbx .rdi,
    .mov .qword .r12 .rsi]

/-- The common way out. -/
def epilogue : Code :=
  .bind .exit :: instrs [.aluImm .add .qword .rsp 8, .pop .r12, .pop .rbx, .ret]

/-- The way out of a trap. -/
def trapExit (pc : UInt64) (kind : Option TrapKind) : Code :=
  let record := match kind with
    | none => []
    | some kind =>
      [.storeImm .rbx (field Layout.pendingTrap) kind.code.toUInt32.toInt32,
       .storeImm .rbx (field Layout.pendingTrapAddr) 0]
  .bind (.trap pc kind) :: instrs record ++ exitTo pc

/-- The way out of a trap label; other labels need none. -/
def trapExit? : Label → Option Code
  | .trap pc kind => some (trapExit pc kind)
  | _ => none

/-- The ways out of every trap that some code jumps to, in the order of their first use. -/
def trapExits (code : Code) : Code :=
  ((code.filterMap Host.Line.target?).eraseDups.filterMap trapExit?).flatten

end Block

end AlphaMachine
