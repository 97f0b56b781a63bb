import AlphaMachine.Settings.Field

/-!
# What the command line asks for

An image to run or to disassemble, where to put it, and the settings of the run.
-/

namespace AlphaMachine

/-- What a command line asks for. -/
structure Request where
  /-- The path of the image, once it is given. -/
  image : Option String := none
  /-- Where the image is loaded. -/
  loadAddress : UInt64 := 0x10000
  /-- The first instruction, if it is not the first of the image. -/
  entry : Option UInt64 := none
  /-- Bytes of memory from address zero. -/
  memorySize : UInt64 := 0x100000
  /-- The path of a settings file. -/
  config : Option String := none
  /-- Whether to disassemble instead of running. -/
  disassemble : Bool := false
  /-- Whether to report in JSON. -/
  json : Bool := false
  /-- Changes of the settings, in order. -/
  changes : List (Settings → Settings) := []

namespace Request

/-- The parameters of the command line. -/
inductive Parameter where
  | image | loadAddress | entry | memorySize | config | disassemble | json
  | setting (field : Settings.Field)
  deriving DecidableEq

/-- The parameter with an option name. -/
def option? (name : String) : Option Parameter :=
  match name with
  | "load-address" => some .loadAddress
  | "entry" => some .entry
  | "mem-size" => some .memorySize
  | "config" => some .config
  | "disasm" => some .disassemble
  | "json" => some .json
  | name => (Settings.Field.ofOption? name).map .setting

/-- Whether a parameter takes a value. -/
def takesValue : Parameter → Bool
  | .disassemble | .json => false
  | .setting field => field.takesValue
  | _ => true

/-- An address or a size. -/
def readWord (text : String) : Except ArgumentError UInt64 :=
  (Number.read text).mapError fun _ => .invalidValue

/-- A path. -/
def readPath (text : String) : Except ArgumentError String :=
  if text.isEmpty then .error .missingValue else .ok text

/-- What giving a parameter with a value does to a request. -/
def readParameter (p : Parameter) (text : String) : Except ArgumentError (Request → Request) :=
  match p with
  | .image => (readPath text).map fun path r => { r with image := some path }
  | .loadAddress => (readWord text).map fun n r => { r with loadAddress := n }
  | .entry => (readWord text).map fun n r => { r with entry := some n }
  | .memorySize => (readWord text).map fun n r => { r with memorySize := n }
  | .config => (readPath text).map fun path r => { r with config := some path }
  | .disassemble => .ok fun r => { r with disassemble := true }
  | .json => .ok fun r => { r with json := true }
  | .setting field => (field.read text).map fun f r => { r with changes := r.changes ++ [f] }

/-- The command line: one image and options. -/
def grammar : Arguments.Grammar Parameter (Request → Request) where
  option? := option?
  takesValue := takesValue
  positional := [.image]
  read := readParameter

/-- The request of the arguments, and the path of its image. -/
def ofArguments (arguments : List String) : Except ArgumentError (String × Request) := do
  let request := (← Arguments.read grammar arguments).foldl (fun r f => f r) {}
  match request.image with
  | some path => return (path, request)
  | none => throw .missingArgument

end Request

end AlphaMachine
