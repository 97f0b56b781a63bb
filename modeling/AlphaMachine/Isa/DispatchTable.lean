import AlphaMachine.Isa.Instruction

/-!
# Dispatch tables

A dispatch table assigns a value to pairs of an opcode and a function code.  It has a place for
each opcode, and for the opcodes with functions a sub-table with a place for each function code.
It is built from a list of registrations, each of which must have the shape its opcode asks for,
and no two of which may name the same key.

* `Opcode.slot?` reduces a function code to the slot that selects an operation;
* `DispatchTable.build` checks the registrations;
* `DispatchTable.lookup` finds the value for an instruction.
-/

namespace AlphaMachine

/-- The highest PAL function with a slot. -/
def palFunctionLimit : Nat := 0xFF

/-- The slot of `function` among the operations of an opcode: its low bits, provided that the
opcode has functions, that a PAL function is within the limit and that floating qualifiers are
defined. -/
def Opcode.slot? (op : Opcode) (function : Nat) : Option Nat :=
  match op.functionBits with
  | none => none
  | some width =>
    if op = .callPal ∧ palFunctionLimit < function then none
    else if op.qualifiersDefined function then some (function % (1 <<< width))
    else none

/-! ### Keys -/

/-- An opcode and, if the opcode has functions, a slot. -/
structure Key where
  /-- The primary opcode. -/
  opcode : Opcode
  /-- The function slot. -/
  function : Option Nat
  deriving DecidableEq

namespace Key

/-- The assembler name of the operation behind the key. -/
def mnemonic? (key : Key) : Option String := key.opcode.mnemonic? key.function

/-- The key as text: opcode, slot and name. -/
def text (key : Key) : String :=
  let code := match key.function with
    | none => Text.hexPadded 2 key.opcode.bits
    | some slot => Text.hexPadded 2 key.opcode.bits ++ "." ++ Text.hex slot
  match key.mnemonic? with
  | none => code
  | some name => code ++ " (" ++ name ++ ")"

end Key

/-- The key under which an instruction is dispatched. -/
def Instruction.key? (i : Instruction) : Option Key :=
  match i.functionCode with
  | none => some ⟨i.opcode, none⟩
  | some function => (i.opcode.slot? function).map fun slot => ⟨i.opcode, some slot⟩

/-! ### Registrations -/

/-- A request to enter a value into a table. -/
inductive Registration (α : Type) where
  /-- For an opcode without functions. -/
  | primary (opcode : Opcode) (value : α)
  /-- For one function of an opcode. -/
  | function (opcode : Opcode) (code : Nat) (value : α)

/-- Why a list of registrations makes no table. -/
inductive TableError where
  /-- The key was registered before. -/
  | duplicate (key : Key)
  /-- A function of an opcode that has none. -/
  | noFunctionField (opcode : Opcode)
  /-- An opcode with functions, registered as a whole. -/
  | functionRequired (opcode : Opcode)
  /-- A function code without a slot. -/
  | functionOutOfRange (opcode : Opcode) (function : Nat)
  deriving DecidableEq

namespace TableError

/-- The diagnostic. -/
def message : TableError → String
  | .duplicate key => "duplicate handler for " ++ key.text
  | .noFunctionField opcode => "opcode " ++ opcode.name ++ " has no function sub-space"
  | .functionRequired opcode => "opcode " ++ opcode.name ++ " is dispatched by function code"
  | .functionOutOfRange opcode function =>
    "function " ++ Text.hex function ++ " is outside the sub-space of " ++ opcode.name

end TableError

namespace Registration

variable {α : Type}

/-- The entry that a registration of the right shape asks for. -/
def entry : Registration α → Except TableError (Key × α)
  | .primary opcode value =>
    match opcode.functionBits with
    | none => .ok (⟨opcode, none⟩, value)
    | some _ => .error (.functionRequired opcode)
  | .function opcode code value =>
    match opcode.functionBits, opcode.slot? code with
    | none, _ => .error (.noFunctionField opcode)
    | some _, none => .error (.functionOutOfRange opcode code)
    | some _, some slot => .ok (⟨opcode, some slot⟩, value)

/-- One value for several functions of an opcode. -/
def functions (opcode : Opcode) (codes : List Nat) (value : α) : List (Registration α) :=
  codes.map fun code => .function opcode code value

end Registration

/-! ### Tables -/

/-- What a table has in the place of an opcode. -/
inductive DispatchTable.Slot (α : Type) where
  /-- Nothing. -/
  | empty
  /-- The value of an opcode without functions. -/
  | primary (value : α)
  /-- The number of the sub-table for the functions of the opcode. -/
  | functions (sub : Nat)

/-- A dispatch table. -/
structure DispatchTable (α : Type) where
  /-- The places of the opcodes. -/
  slots : Vector (DispatchTable.Slot α) 64
  /-- The sub-tables, in the order in which their opcodes were registered. -/
  subs : Array (Array (Option α))

namespace DispatchTable

variable {α : Type}

/-- The table without entries. -/
def empty : DispatchTable α := ⟨.replicate 64 .empty, #[]⟩

/-- What stands in the place of an opcode. -/
def slot (t : DispatchTable α) (op : Opcode) : Slot α := t.slots.get ⟨op.bits, op.bits_lt⟩

/-- The place of a function code in a sub-table, unless a number is out of range. -/
def cell? (t : DispatchTable α) (sub function : Nat) : Option (Option α) :=
  t.subs[sub]?.bind fun row => row[function]?

/-- The value under a key. -/
def get? (t : DispatchTable α) (key : Key) : Option α :=
  match t.slot key.opcode, key.function with
  | .primary value, none => some value
  | .functions sub, some function => (t.cell? sub function).join
  | _, _ => none

/-- The value for an instruction. -/
def lookup (t : DispatchTable α) (i : Instruction) : Option α := i.key?.bind t.get?

/-- The keys of an opcode that have a value, ascending. -/
def keysOf (t : DispatchTable α) (op : Opcode) : List Key :=
  match t.slot op with
  | .empty => []
  | .primary _ => [⟨op, none⟩]
  | .functions sub =>
    ((t.subs.getD sub #[]).toList.zipIdx.filter fun e => e.1.isSome).map fun e => ⟨op, some e.2⟩

/-- The registered keys, ascending. -/
def keys (t : DispatchTable α) : List Key :=
  (List.range 64).flatMap fun bits => t.keysOf (.ofBits bits)

/-- The number of entries. -/
def size (t : DispatchTable α) : Nat := t.keys.length

/-! ### Building -/

/-- Put something in the place of an opcode. -/
def setSlot (t : DispatchTable α) (op : Opcode) (slot : Slot α) : DispatchTable α :=
  { t with slots := t.slots.set op.bits slot op.bits_lt }

/-- Put a value in the place of a function code. -/
def setCell (t : DispatchTable α) (sub function : Nat) (value : α) : DispatchTable α :=
  { t with
    subs := t.subs.setIfInBounds sub ((t.subs.getD sub #[]).setIfInBounds function (some value)) }

/-- The table with a new sub-table for an opcode, with a place for each function code. -/
def newSub (t : DispatchTable α) (op : Opcode) : DispatchTable α :=
  { t.setSlot op (.functions t.subs.size) with
    subs := t.subs.push (.replicate ((op.functionBits.map (1 <<< ·)).getD 0) none) }

/-- The table with a sub-table for an opcode, and the number of the sub-table. -/
def openSub (t : DispatchTable α) (op : Opcode) : DispatchTable α × Nat :=
  match t.slot op with
  | .functions sub => (t, sub)
  | _ => (t.newSub op, t.subs.size)

/-- Add an entry under a new key. -/
def add (t : DispatchTable α) (e : Key × α) : Except TableError (DispatchTable α) :=
  match e.1.function with
  | none =>
    match t.slot e.1.opcode with
    | .empty => .ok (t.setSlot e.1.opcode (.primary e.2))
    | _ => .error (.duplicate e.1)
  | some function =>
    let (t, sub) := t.openSub e.1.opcode
    match t.cell? sub function with
    | some (some _) => .error (.duplicate e.1)
    | _ => .ok (t.setCell sub function e.2)

/-- The table of a list of registrations: a registration of the wrong shape is reported before
any duplicate. -/
def build (registrations : List (Registration α)) : Except TableError (DispatchTable α) := do
  let entries ← registrations.mapM Registration.entry
  entries.foldlM add empty

end DispatchTable

end AlphaMachine
