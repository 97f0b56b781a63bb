import AlphaMachine.Cli.Report
import AlphaMachine.Cli.Request
import AlphaMachine.Settings.Document

/-!
# Sessions

A session answers one command line: it reads the image, then lists it or runs it under the
settings of the defaults, the settings file and the options, each of which overrides those before
it.  Files come from a function, so that a session is a value.
-/

namespace AlphaMachine

/-- Reading a file: its bytes, or why it cannot be read. -/
abbrev Files := String → Except String ByteArray

/-- Why a session fails. -/
inductive SessionError where
  /-- The arguments are not understood. -/
  | arguments (cause : ArgumentError)
  /-- The image cannot be read. -/
  | unreadableImage (path : String)
  /-- The image is not a whole number of instructions. -/
  | oddImage (cause : Instruction.UnalignedLength)
  /-- The settings file cannot be read. -/
  | unreadableSettings (path cause : String)
  /-- The settings file is not one. -/
  | malformedSettings (path : String)
  /-- A count of the settings is zero. -/
  | zeroCount (count : Settings.Count)
  /-- The image does not fit into the memory. -/
  | imageTooLarge (address : UInt64)

namespace SessionError

/-- The diagnostic. -/
def message : SessionError → String
  | .arguments _ => "unusable arguments"
  | .unreadableImage path => "failed to read image " ++ path
  | .oddImage cause => "image length " ++ toString cause.length ++ " is not a multiple of 4"
  | .unreadableSettings path cause => "failed to read " ++ path ++ ": " ++ cause
  | .malformedSettings path => "failed to parse " ++ path ++ ": TOML parse error"
  | .zeroCount count => count.zeroMessage
  | .imageTooLarge address => "image does not fit at " ++ Text.hex address.toNat

/-- The exit status: arguments that are not understood differ from other failures. -/
def status : SessionError → UInt32
  | .arguments _ => 2
  | _ => 1

end SessionError

namespace Session

/-- The text of a settings file. -/
def readText (files : Files) (path : String) : Except String String := do
  match String.fromUTF8? (← files path) with
  | some text => return text
  | none => throw "stream did not contain valid UTF-8"

/-- The settings of a settings file. -/
def readSettings (files : Files) (path : String) : Except SessionError Settings := do
  let text ← (readText files path).mapError (.unreadableSettings path)
  (Settings.ofDocument text).mapError fun
    | .malformed => .malformedSettings path
    | .zero count => .zeroCount count

/-- The settings of a request. -/
def settings (files : Files) (request : Request) : Except SessionError Settings := do
  let base ← match request.config with
    | some path => readSettings files path
    | none => pure {}
  let settings := base.change request.changes
  match settings.zeroCount? with
  | some count => throw (.zeroCount count)
  | none => return settings

/-- List an image. -/
def list (request : Request) (image : List UInt8) : Except SessionError (List String) :=
  match Instruction.readCode image request.loadAddress with
  | .error cause => .error (.oddImage cause)
  | .ok code => .ok (code.map fun (pc, word) => Report.listingLine pc word)

/-- Run an image. -/
def run (files : Files) (request : Request) (image : List UInt8) :
    Except SessionError (List String) := do
  let settings ← settings files request
  let blank := Memory.zeroed 0 request.memorySize.toNat
  let mem ← (blank.loadImage request.loadAddress image).mapError
    fun _ => .imageTooLarge request.loadAddress
  let (e, exit) := (Engine.start mem (request.entry.getD request.loadAddress) settings).run none
  let e := e.await
  return if request.json then [(Report.json exit e).render] else Report.lines exit e

/-- The lines that answer a command line. -/
def answer (files : Files) (arguments : List String) : Except SessionError (List String) := do
  let (path, request) ← (Request.ofArguments arguments).mapError .arguments
  let image ← (files path).mapError fun _ => .unreadableImage path
  if request.disassemble then list request image.toList else run files request image.toList

end Session

end AlphaMachine
