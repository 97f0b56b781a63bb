/-!
# Settings

What can be chosen about a run of the machine.  Settings are valid when the counts that have to be
positive are.
-/

namespace AlphaMachine

/-- The settings of a run. -/
structure Settings where
  /-- Whether hot blocks are compiled at all. -/
  jit : Bool := true
  /-- Visits of a block entry before it is compiled. -/
  hotThreshold : UInt32 := 50
  /-- Most instructions of a compiled block. -/
  maxBlockLength : UInt64 := 64
  /-- Whether a worker compiles hot blocks in the background. -/
  backgroundCompile : Bool := false
  /-- Where the table of trap handlers starts. -/
  trapVectorBase : UInt64 := 0
  /-- Whether a trap ends the run instead of going to its handler. -/
  stopOnTrap : Bool := false
  /-- Most steps of a run. -/
  maxSteps : Option UInt64 := none
  deriving DecidableEq

namespace Settings

/-- The counts that have to be positive. -/
inductive Count where
  | hotThreshold | maxBlockLength
  deriving DecidableEq

/-- The name of a count in diagnostics. -/
def Count.name : Count → String
  | .hotThreshold => "hot_threshold"
  | .maxBlockLength => "max_block_len"

/-- The diagnostic of a count that is zero. -/
def Count.zeroMessage (count : Count) : String := count.name ++ " must be at least 1"

/-- The first count that is zero. -/
def zeroCount? (s : Settings) : Option Count :=
  if s.hotThreshold = 0 then some .hotThreshold
  else if s.maxBlockLength = 0 then some .maxBlockLength
  else none

end Settings

end AlphaMachine
