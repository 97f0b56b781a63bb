import AlphaMachine.Cli.Session

/-!
# The program

Reads the files that the command line names and prints what the session answers.
-/

namespace AlphaMachine

namespace Console

/-- Read a file, with the host's description of a failure. -/
def readFile (path : String) : IO (Except String ByteArray) := do
  try
    return .ok (← IO.FS.readBinFile path)
  catch
    | .noFileOrDirectory .. => return .error "No such file or directory (os error 2)"
    | e => return .error (toString e)

/-- The files that a command line names. -/
def readFiles (arguments : List String) : IO Files := do
  let paths := match Request.ofArguments arguments with
    | .ok (path, request) => path :: request.config.toList
    | .error _ => []
  let contents ← paths.mapM readFile
  return fun path => ((paths.zip contents).lookup path).getD (.error "not read")

/-- Answer a command line. -/
def run (arguments : List String) : IO UInt32 := do
  match Session.answer (← readFiles arguments) arguments with
  | .ok lines =>
    lines.forM IO.println
    return 0
  | .error e =>
    IO.eprintln ("Error: " ++ e.message)
    return e.status

end Console

end AlphaMachine

/-- Answer the command line. -/
def main (arguments : List String) : IO UInt32 := AlphaMachine.Console.run arguments
