/-!
# Command-line arguments

Options are given by long names.  An option takes no value, or one value that is attached behind
`=` or is the next argument.  `--` makes all later arguments positional.

The value of an option is read only when the next known option or positional argument begins, or
at the end; a value that is attached is read at once.  So an unknown argument is reported before
an unreadable value in front of it.
-/

namespace AlphaMachine

/-- Why arguments are rejected. -/
inductive ArgumentError where
  /-- No option has this name, or there is no place for a positional argument. -/
  | unknownArgument
  /-- An option lacks its value, or a path is empty. -/
  | missingValue
  /-- A value cannot be read. -/
  | invalidValue
  /-- An option is given twice. -/
  | repeated
  /-- A value is attached to an option that takes none. -/
  | unexpectedValue
  /-- A required argument is not given. -/
  | missingArgument
  deriving DecidableEq

namespace Arguments

/-- What may be given: parameters `P`, each of which is read as an `α`. -/
structure Grammar (P α : Type) where
  /-- The option with a name. -/
  option? : String → Option P
  /-- Whether an option takes a value. -/
  takesValue : P → Bool
  /-- The positional parameters, in order. -/
  positional : List P
  /-- Read the value of a parameter; an option without a value reads the empty text. -/
  read : P → String → Except ArgumentError α

/-- An argument by its form. -/
inductive Form where
  /-- The end of options. -/
  | endOfOptions
  /-- A long name, with an attached value or without. -/
  | long (name : String) (value : Option String)
  /-- Short names, of which there are none. -/
  | short
  /-- Any other text; a lone dash is such a text. -/
  | text

/-- A text cut at the first `=`. -/
def cutAtEquals (text : List Char) : String × Option String :=
  let name := text.takeWhile (· ≠ '=')
  match text.dropWhile (· ≠ '=') with
  | [] => (String.ofList name, none)
  | _ :: value => (String.ofList name, some (String.ofList value))

/-- The form of an argument. -/
def Form.of (argument : String) : Form :=
  match argument.toList with
  | ['-', '-'] => .endOfOptions
  | '-' :: '-' :: rest =>
    let (name, value) := cutAtEquals rest
    .long name value
  | '-' :: _ :: _ => .short
  | _ => .text

/-- Arguments read so far. -/
structure Reading (P α : Type) where
  /-- The parameters that have been read. -/
  given : List P := []
  /-- What was read, in order. -/
  values : List α := []
  /-- The parameter that has not been read, with its value once there is one. -/
  pending : Option (P × Option String) := none
  /-- The positional parameters that are left. -/
  positional : List P
  /-- Whether all arguments are positional. -/
  optionsEnded : Bool := false

section

variable {P α : Type} [DecidableEq P] (g : Grammar P α)

/-- Read the value of a parameter that may be given once. -/
def accept (r : Reading P α) (p : P) (text : String) : Except ArgumentError (Reading P α) :=
  if p ∈ r.given then .error .repeated
  else (g.read p text).map fun a =>
    { r with given := p :: r.given, values := r.values ++ [a], pending := none }

/-- Read the pending parameter. -/
def settle (r : Reading P α) : Except ArgumentError (Reading P α) :=
  match r.pending with
  | none => .ok r
  | some (_, none) => .error .missingValue
  | some (p, some text) => accept g r p text

/-- Take an argument as the next positional one. -/
def takePositional (r : Reading P α) (argument : String) : Except ArgumentError (Reading P α) :=
  match r.positional with
  | [] => .error .unknownArgument
  | p :: rest =>
    (settle g r).map fun r => { r with pending := some (p, some argument), positional := rest }

/-- Take an option. -/
def takeOption (r : Reading P α) (name : String) (value : Option String) :
    Except ArgumentError (Reading P α) :=
  match g.option? name with
  | none => .error .unknownArgument
  | some p =>
    match g.takesValue p, value with
    | false, some _ => .error .unexpectedValue
    | true, none => (settle g r).map fun r => { r with pending := some (p, none) }
    | _, value => (settle g r).bind fun r => accept g r p (value.getD "")

/-- Take the next argument. -/
def take (r : Reading P α) (argument : String) : Except ArgumentError (Reading P α) :=
  if r.optionsEnded then takePositional g r argument
  else match Form.of argument with
    | .endOfOptions => .ok { r with optionsEnded := true }
    | .long name value => takeOption g r name value
    | .short => .error .unknownArgument
    | .text =>
      match r.pending with
      | some (p, none) => .ok { r with pending := some (p, some argument) }
      | _ => takePositional g r argument

/-- Read all arguments. -/
def read (arguments : List String) : Except ArgumentError (List α) := do
  let r ← arguments.foldlM (take g) { positional := g.positional }
  return (← settle g r).values

end

end Arguments

end AlphaMachine
