import AlphaMachine.Arguments
import AlphaMachine.Settings.Basic
import AlphaMachine.Settings.Number

/-!
# Fields of the settings

A field is given in a settings file under a key, or on the command line by an option.  An option
without a value turns its field away from the default.
-/

namespace AlphaMachine

namespace Settings

/-- The fields of the settings. -/
inductive Field where
  | jit | hotThreshold | maxBlockLength | backgroundCompile | trapVectorBase | stopOnTrap
  | maxSteps
  deriving DecidableEq

namespace Field

/-- Every field. -/
def all : List Field :=
  [.jit, .hotThreshold, .maxBlockLength, .backgroundCompile, .trapVectorBase, .stopOnTrap,
   .maxSteps]

/-- The key in a settings file. -/
def key : Field → String
  | .jit => "jit"
  | .hotThreshold => "hot_threshold"
  | .maxBlockLength => "max_block_len"
  | .backgroundCompile => "background_compile"
  | .trapVectorBase => "trap_vector_base"
  | .stopOnTrap => "stop_on_trap"
  | .maxSteps => "max_steps"

/-- The field with a key. -/
def ofKey? (key : String) : Option Field := all.find? fun field => field.key = key

/-- The name of the option. -/
def option : Field → String
  | .jit => "no-jit"
  | .hotThreshold => "hot-threshold"
  | .maxBlockLength => "max-block-len"
  | .backgroundCompile => "background-compile"
  | .trapVectorBase => "trap-vector-base"
  | .stopOnTrap => "stop-on-trap"
  | .maxSteps => "max-steps"

/-- The field with an option name. -/
def ofOption? (name : String) : Option Field := all.find? fun field => field.option = name

/-- Whether the option takes a value. -/
def takesValue : Field → Bool
  | .jit | .backgroundCompile | .stopOnTrap => false
  | .hotThreshold | .maxBlockLength | .trapVectorBase | .maxSteps => true

/-- A value that was read, or the report that it is invalid. -/
def orInvalid {α : Type} (value : Option α) : Except ArgumentError α :=
  match value with
  | some a => .ok a
  | none => .error .invalidValue

/-- What giving the option with a value does to the settings. -/
def read (field : Field) (text : String) : Except ArgumentError (Settings → Settings) :=
  match field with
  | .jit => .ok fun s => { s with jit := false }
  | .backgroundCompile => .ok fun s => { s with backgroundCompile := true }
  | .stopOnTrap => .ok fun s => { s with stopOnTrap := true }
  | .hotThreshold =>
    (orInvalid (Number.readPlain32 text)).map fun n s => { s with hotThreshold := n }
  | .maxBlockLength =>
    (orInvalid (Number.readPlain text)).map fun n s => { s with maxBlockLength := n }
  | .trapVectorBase =>
    (orInvalid (Number.read text).toOption).map fun n s => { s with trapVectorBase := n }
  | .maxSteps => (orInvalid (Number.readPlain text)).map fun n s => { s with maxSteps := some n }

end Field

/-- The options of the settings alone. -/
def grammar : Arguments.Grammar Field (Settings → Settings) where
  option? := Field.ofOption?
  takesValue := Field.takesValue
  positional := []
  read := Field.read

/-- Apply changes in order. -/
def change (s : Settings) (changes : List (Settings → Settings)) : Settings :=
  changes.foldl (fun s f => f s) s

/-- The settings with the fields that the arguments give. -/
def withArguments (s : Settings) (arguments : List String) : Except ArgumentError Settings :=
  (Arguments.read grammar arguments).map s.change

end Settings

end AlphaMachine
