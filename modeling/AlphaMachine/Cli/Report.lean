import AlphaMachine.Engine.Step
import AlphaMachine.Text.Json

/-!
# Reports

The final state of a run, as lines of text or as a JSON document, and the listing of an image.
-/

namespace AlphaMachine

namespace Report

/-! ### Text -/

/-- A trap with all its parts. -/
def trapText (trap : Trap) : String :=
  let address := match trap.address with
    | some a => "Some(" ++ toString a ++ ")"
    | none => "None"
  "Trap \x7b kind: " ++ trap.kind.name ++ ", pc: " ++ toString trap.pc ++ ", address: " ++
    address ++ " \x7d"

/-- Why the run ended. -/
def exitText : Exit → String
  | .halted => "Halted"
  | .stepLimit => "StepLimit"
  | .trapped trap => "Trapped(" ++ trapText trap ++ ")"

/-- All 16 digits of a word. -/
def wordText (value : UInt64) : String := Text.hexPadded 16 value.toNat

/-- A register of each file. -/
def registerLine (cpu : Processor) (i : Reg) : String :=
  let index := Text.padRight 2 (toString i.val)
  "r" ++ index ++ " " ++ wordText (cpu.int.get i) ++ "    f" ++ index ++ " " ++
    wordText (cpu.fp.get i)

/-- The report as lines. -/
def lines (exit : Exit) (e : Engine) : List String :=
  let cpu := e.machine.cpu
  ["exit: " ++ exitText exit, "pc: " ++ wordText cpu.pc ++ "  cycles: " ++ toString cpu.cycles] ++
    (List.finRange 32).map (registerLine cpu)

/-! ### JSON -/

/-- A word as a number. -/
def word (value : UInt64) : Text.Json := .number value.toNat

/-- Why the run ended. -/
def exitJson : Exit → Text.Json
  | .halted => .text "Halted"
  | .stepLimit => .text "StepLimit"
  | .trapped trap =>
    .object [("Trapped", .object
      [("kind", .text trap.kind.name), ("pc", word trap.pc),
       ("address", (trap.address.map word).getD .null)])]

/-- The counts of a run. -/
def statsJson (stats : Stats) : Text.Json :=
  .object
    [("interpreted", .number stats.interpreted),
     ("compiled_runs", .number stats.compiledRuns),
     ("compiled_instructions", .number stats.compiledInstructions),
     ("compilations", .number stats.compilations),
     ("compile_failures", .number stats.compileFailures),
     ("traps", .number stats.traps),
     ("invalidations", .number stats.invalidations)]

/-- The report as a document. -/
def json (exit : Exit) (e : Engine) : Text.Json :=
  let cpu := e.machine.cpu
  .object
    [("exit", exitJson exit), ("pc", word cpu.pc), ("cycles", word cpu.cycles),
     ("int_regs", .array (cpu.int.toList.map word)), ("fp_regs", .array (cpu.fp.toList.map word)),
     ("stats", statsJson e.control.stats)]

/-! ### Listings -/

/-- A line of a listing. -/
def listingLine (pc : UInt64) (code : UInt32) : String :=
  Text.hexPadded 8 pc.toNat ++ ":  " ++ Text.padLeft 8 '0' (Text.hexDigits code.toNat) ++ "  " ++
    Instruction.disassemble code pc

end Report

end AlphaMachine
