import AlphaMachine.Host.Emitter

/-!
# Symbolic code

A piece of code as a list of lines: instructions, jumps to labels, label positions, and loads of
addresses that are only known when the code is put in place.  `assemble` turns it into bytes.

An address has not been chosen when its load is emitted, so the load spells out all 64 bits.  This
is the shortest exact form of an address that neither 32-bit form reaches (`Instr.IsWide`), as the
addresses of functions do not where code is mapped.
-/

namespace AlphaMachine

namespace Host

/-- A line of symbolic code, with labels from `L` and symbols from `S`. -/
inductive Line (L S : Type) where
  /-- An instruction. -/
  | instr (i : Instr)
  /-- Load the address of a symbol. -/
  | address (dst : Gpr) (symbol : S)
  /-- Jump to a label. -/
  | jump (label : L)
  /-- Jump to a label if a condition holds. -/
  | jumpIf (cond : Cond) (label : L)
  /-- The position of a label. -/
  | bind (label : L)

/-- Assembled code, and where in it the addresses of symbols belong. -/
structure Object (S : Type) where
  /-- The bytes, with zeros in the place of addresses. -/
  code : CodeBuffer
  /-- Offsets of eight-byte addresses, ascending. -/
  relocations : List (Nat × S)

namespace Line

variable {L S : Type} [DecidableEq L]

/-- The label that a line refers to. -/
def label? : Line L S → Option L
  | .jump label | .jumpIf _ label | .bind label => some label
  | _ => none

/-- The label that a line jumps to. -/
def target? : Line L S → Option L
  | .jump label | .jumpIf _ label => some label
  | _ => none

/-- Every label of some code, in the order of first appearance. -/
def labels (code : List (Line L S)) : List L := (code.filterMap label?).eraseDups

/-- An emitter together with the relocations so far. -/
abbrev Assembling (S : Type) := Emitter × Array (Nat × S)

/-- Emit one line; `number` gives the emitter's label for a label of the code. -/
def emit (number : L → Label) (state : Assembling S) (line : Line L S) :
    Except EmitError (Assembling S) :=
  let (e, relocations) := state
  match line with
  | .instr i => .ok (e.emit i, relocations)
  | .address dst symbol =>
    let bytes := Instr.encodeMovAbsolute dst 0
    .ok (e.append bytes, relocations.push (e.offset + bytes.length - 8, symbol))
  | .jump label => .ok (e.jump (number label), relocations)
  | .jumpIf cond label => .ok (e.jumpIf cond (number label), relocations)
  | .bind label => (e.bind (number label)).map (·, relocations)

/-- An emitter with `count` new labels. -/
def withLabels : Nat → Emitter
  | 0 => .empty
  | count + 1 => (withLabels count).newLabel.2

/-- The bytes of symbolic code. -/
def assemble (code : List (Line L S)) : Except EmitError (Object S) := do
  let names := labels code
  let (e, relocations) ← code.foldlM (emit names.idxOf) (withLabels names.length, #[])
  return ⟨← e.finish, relocations.toList⟩

end Line

end Host

end AlphaMachine
