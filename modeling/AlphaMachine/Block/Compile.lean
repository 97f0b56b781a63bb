import AlphaMachine.Block.Translation

/-!
# Compiled blocks

A block is a run of guest instructions up to the first one that ends a block.  `Block.compile`
turns it into host code: the prologue, the code of each instruction, an exit to the following
instruction if the last one does not leave by itself, the epilogue and the exits of traps.
-/

namespace AlphaMachine

/-- Why a block cannot be compiled. -/
inductive CompileError where
  /-- There is no instruction. -/
  | emptyBlock (start : UInt64)
  /-- No operation belongs to the word at `pc`. -/
  | unsupported (pc : UInt64) (word : UInt32)
  /-- The code cannot be emitted. -/
  | emit (error : Host.EmitError)
  deriving DecidableEq

/-- The diagnostic. -/
def CompileError.message : CompileError → String
  | .emptyBlock start => "cannot compile an empty block at " ++ Text.hex start.toNat
  | .unsupported pc word =>
    "no translation for " ++ Text.hexPadded 8 word.toNat ++ " at " ++ Text.hex pc.toNat
  | .emit error => error.message

/-- A compiled block. -/
structure Block where
  /-- The address of the first instruction. -/
  start : UInt64
  /-- The instructions. -/
  words : List UInt32
  /-- The host code. -/
  object : Host.Object Block.Helper

namespace Block

/-! ### Range -/

/-- The number of instructions. -/
def size (b : Block) : Nat := b.words.length

/-- The address behind the last instruction. -/
def stop (b : Block) : UInt64 := b.start + 4 * b.size.toUInt64

/-- Whether an address lies in the range of the block. -/
def covers (b : Block) (address : UInt64) : Bool := b.start ≤ address && address < b.stop

/-! ### Compilation -/

/-- Whether a word ends a block. -/
def endsAt (word : UInt32) : Bool := (Instruction.decode word).endsBlock

/-- Translated instructions. -/
structure Body where
  /-- The instructions. -/
  words : List UInt32
  /-- Their code. -/
  code : Code
  /-- Whether the code of the last one leaves the block. -/
  ended : Bool

/-- The instructions from `pc` up to the first whose code leaves the block, translated. -/
def translate : UInt64 → List UInt32 → Except CompileError Body
  | _, [] => .ok ⟨[], [], false⟩
  | pc, word :: rest =>
    match lowerWord? pc word with
    | none => .error (.unsupported pc word)
    | some code =>
      if leavesAt word then .ok ⟨[word], code, true⟩
      else (translate (pc + 4) rest).map fun body =>
        ⟨word :: body.words, code ++ body.code, body.ended⟩

/-- The way from the last instruction to the one behind the block, unless it has left. -/
def Body.onward (body : Body) (start : UInt64) : Code :=
  if body.ended then [] else exitTo (start + 4 * body.words.length.toUInt64)

/-- Compile the instructions from `start` up to the first that ends a block. -/
def compile (start : UInt64) (words : List UInt32) : Except CompileError Block := do
  if words.isEmpty then throw (.emptyBlock start)
  let body ← translate start words
  let code := prologue ++ body.code ++ body.onward start ++ epilogue ++ trapExits body.code
  let object ← (Host.Line.assemble code).mapError .emit
  return ⟨start, body.words, object⟩

end Block

end AlphaMachine
