import AlphaMachine.Host.CodeBuffer
import AlphaMachine.Host.Instr
import AlphaMachine.Text.Hex

/-!
# Emitting code with labels

An emitter appends instructions to a buffer.  A jump names a label and leaves a four-byte
placeholder; once the label is bound to an offset, resolving patches the placeholder with the
distance from its end to that offset.

* `Emitter.newLabel`, `Emitter.bind` manage labels, each of which is bound at most once;
* `Emitter.jump`, `Emitter.jumpIf` record placeholders;
* `Emitter.resolve` patches placeholders in the order in which they were recorded, up to the first
  whose label is unbound;
* `Emitter.finish` hands out the code only if every placeholder was patched.
-/

namespace AlphaMachine

namespace Host

/-- A label, by its number in the emitter that made it. -/
abbrev Label := Nat

/-- The name of a label in diagnostics. -/
def Label.name (label : Label) : String := "L" ++ toString label

/-- Why code cannot be emitted. -/
inductive EmitError where
  /-- A jump names a label that was never bound. -/
  | unboundLabel (label : Label)
  /-- The label is bound already. -/
  | labelRebound (label : Label) (offset : Nat)
  /-- The label was made by another emitter. -/
  | unknownLabel (label : Label)
  /-- There is no code to map. -/
  | emptyBuffer
  deriving DecidableEq

/-- The diagnostic. -/
def EmitError.message : EmitError → String
  | .unboundLabel label =>
    "label " ++ Label.name label ++ " is referenced but was never bound"
  | .labelRebound label offset =>
    "label " ++ Label.name label ++ " is already bound at offset " ++ Text.hex offset
  | .unknownLabel label => "label " ++ Label.name label ++ " does not belong to this emitter"
  | .emptyBuffer => "cannot map an empty code buffer"

/-- A placeholder that waits for its label. -/
structure Fixup where
  /-- Offset of the first of the four bytes. -/
  offset : Nat
  /-- The label to jump to. -/
  label : Label
  deriving DecidableEq

/-- The distance from the end of the placeholder to `target`. -/
def Fixup.displacement (fixup : Fixup) (target : Nat) : Int32 :=
  Int32.ofInt (target - (fixup.offset + 4))

/-- Code under construction. -/
structure Emitter where
  /-- The bytes so far, with placeholders possibly unpatched. -/
  buf : CodeBuffer
  /-- The offset of each bound label. -/
  labels : Array (Option Nat)
  /-- The unpatched placeholders in the order in which they were recorded. -/
  fixups : Array Fixup
  deriving DecidableEq

namespace Emitter

/-- An emitter that continues after the bytes of `buf`. -/
def ofBuffer (buf : CodeBuffer) : Emitter := ⟨buf, #[], #[]⟩

/-- An emitter without any code. -/
def empty : Emitter := ofBuffer .empty

/-- The current offset. -/
def offset (e : Emitter) : Nat := e.buf.size

/-! ### Labels -/

/-- Make a label. -/
def newLabel (e : Emitter) : Label × Emitter :=
  (e.labels.size, { e with labels := e.labels.push none })

/-- The offset of a label, if it is bound. -/
def labelOffset? (e : Emitter) (label : Label) : Option Nat := e.labels[label]?.join

/-- Bind a label to the current offset. -/
def bind (e : Emitter) (label : Label) : Except EmitError Emitter :=
  match e.labels[label]? with
  | none => .error (.unknownLabel label)
  | some (some bound) => .error (.labelRebound label bound)
  | some none => .ok { e with labels := e.labels.setIfInBounds label (some e.offset) }

/-! ### Code -/

/-- Append bytes. -/
def append (e : Emitter) (bytes : List UInt8) : Emitter := { e with buf := e.buf.append bytes }

/-- Append an instruction. -/
def emit (e : Emitter) (i : Instr) : Emitter := e.append i.encode

/-- Append a placeholder for the distance to a label. -/
def placeholder (e : Emitter) (label : Label) : Emitter :=
  { e with buf := e.buf.pushDword 0, fixups := e.fixups.push ⟨e.offset, label⟩ }

/-- Jump to a label. -/
def jump (e : Emitter) (label : Label) : Emitter := (e.append [0xE9]).placeholder label

/-- Jump to a label if a condition holds. -/
def jumpIf (e : Emitter) (cond : Cond) (label : Label) : Emitter :=
  (e.append [0x0F, 0x80 + UInt8.ofNat cond.code]).placeholder label

/-! ### Resolution -/

/-- Patch placeholders up to the first whose label is unbound; return the bytes and the
placeholders left. -/
def patch (offset? : Label → Option Nat) : CodeBuffer → List Fixup → CodeBuffer × List Fixup
  | buf, [] => (buf, [])
  | buf, fixup :: rest =>
    match offset? fixup.label with
    | none => (buf, fixup :: rest)
    | some target =>
      patch offset? (buf.patchDword fixup.offset (fixup.displacement target).toUInt32) rest

/-- Patch what can be patched; the error names the label that stopped it. -/
def resolve (e : Emitter) : Option EmitError × Emitter :=
  let (buf, rest) := patch e.labelOffset? e.buf e.fixups.toList
  (rest.head?.map fun fixup => .unboundLabel fixup.label,
   { e with buf := buf, fixups := rest.toArray })

/-- The finished code. -/
def finish (e : Emitter) : Except EmitError CodeBuffer :=
  match e.resolve with
  | (some err, _) => .error err
  | (none, e) => .ok e.buf

end Emitter

end Host

end AlphaMachine
