import AlphaMachine.Engine.Worker
import AlphaMachine.Settings.Basic
import Std.Data.HashMap

/-!
# Which blocks are compiled

Every block entry is interpreted until it has been visited often enough, then compiled once, and
from then on run as compiled:

```text
interpreting --(visits reach the threshold)--> compiling --(success)--> compiled
     ^                                             |
     +-----------------(failure: pinned)-----------+
```

A pinned entry is not compiled again until it is invalidated.  Invalidation forgets entries and
begins a new epoch, so that compilations from an earlier epoch are dropped when they come back.

With a worker, a hot entry is deferred: it is submitted when execution has reached another entry.

* `Control.visit` counts a visit and finds the block to run;
* `Control.invalidate` and `Control.invalidateAll` forget entries;
* `Control.drain` and `Control.await` take in what the worker has finished.
-/

namespace AlphaMachine

/-! ### Entries -/

/-- The state of a block entry. -/
inductive Entry where
  /-- Interpreted, after `hits` visits; a pinned entry stays interpreted. -/
  | interpreting (hits : Nat) (pinned : Bool)
  /-- The worker is compiling it. -/
  | compiling
  /-- Run as compiled. -/
  | compiled (block : Block)

namespace Entry

/-- An entry before its first visit. -/
def unvisited : Entry := .interpreting 0 false

/-- An entry whose compilation failed. -/
def failed : Entry := .interpreting 0 true

/-- The compiled block. -/
def block? : Entry → Option Block
  | .compiled block => some block
  | _ => none

/-- Whether an entry waits for more visits. -/
def isOpen : Entry → Bool
  | .interpreting _ false => true
  | _ => false

/-- Whether the worker is compiling the entry. -/
def isCompiling : Entry → Bool
  | .compiling => true
  | _ => false

/-- Whether the entry at `start` survives the invalidation of `address`. -/
def survives (address start : UInt64) : Entry → Bool
  | .compiled block => !block.covers address
  | .compiling => false
  | .interpreting _ _ => start != address

/-- The largest count of visits. -/
def maxHits : Nat := UInt32.size - 1

end Entry

/-- The entries that were visited. -/
abbrev BlockTable := Std.HashMap UInt64 Entry

/-- Counts of what an engine has done. -/
structure Stats where
  /-- Interpreted instructions. -/
  interpreted : Nat := 0
  /-- Runs of compiled blocks. -/
  compiledRuns : Nat := 0
  /-- Instructions retired in compiled blocks. -/
  compiledInstructions : Nat := 0
  /-- Compilations begun. -/
  compilations : Nat := 0
  /-- Compilations failed. -/
  compileFailures : Nat := 0
  /-- Traps raised. -/
  traps : Nat := 0
  /-- Invalidations. -/
  invalidations : Nat := 0
  deriving DecidableEq

/-- What decides how instructions are executed. -/
structure Control where
  /-- The settings. -/
  settings : Settings
  /-- The visited entries. -/
  blocks : BlockTable := ∅
  /-- The number of invalidations so far, which tells compilations apart. -/
  epoch : Nat := 0
  /-- The counts. -/
  stats : Stats := {}
  /-- The background compiler, if there is one. -/
  worker : Option Worker
  /-- Whether the next instruction is a block entry. -/
  atBlockEntry : Bool := true
  /-- Instructions interpreted since the last block entry. -/
  runLength : Nat := 0
  /-- The hot entry to be submitted when execution has reached another one. -/
  deferred : Option UInt64 := none

namespace Control

/-- The control of a fresh engine. -/
def start (settings : Settings) : Control :=
  { settings, worker := if settings.jit && settings.backgroundCompile then some {} else none }

/-- The next instruction is a block entry. -/
def enterBlock (c : Control) : Control := { c with atBlockEntry := true, runLength := 0 }

/-! ### Invalidation -/

/-- Begin a new epoch with the entries that survive. -/
def newEpoch (c : Control) (blocks : BlockTable) : Control :=
  { c with
    blocks := blocks
    epoch := c.epoch + 1
    stats.invalidations := c.stats.invalidations + 1
    deferred := none }

/-- Forget the blocks that cover `address`, the compilations under way and the visits of the entry
at `address`. -/
def invalidate (c : Control) (address : UInt64) : Control :=
  c.newEpoch (c.blocks.filter (Entry.survives address))

/-- Forget every entry. -/
def invalidateAll (c : Control) : Control := c.newEpoch ∅

/-! ### Compilation -/

/-- The instruction word at `pc`. -/
def fetch (mem : Memory) (pc : UInt64) : Except MemoryFault UInt32 :=
  (mem.load pc .long).map UInt64.toUInt32

/-- At most `n` words from `pc`, up to the first that ends a block; a word that cannot be fetched
ends the block too, unless it is the first. -/
def fetchBlock (mem : Memory) : Nat → UInt64 → Except MemoryFault (List UInt32)
  | 0, _ => .ok []
  | n + 1, pc =>
    (fetch mem pc).map fun word =>
      word :: if Block.endsAt word then [] else (fetchBlock mem n (pc + 4)).toOption.getD []

/-- Set the state of an entry. -/
def setEntry (c : Control) (pc : UInt64) (entry : Entry) : Control :=
  { c with blocks := c.blocks.insert pc entry }

/-- Pin an entry whose compilation failed. -/
def fail (c : Control) (pc : UInt64) : Control :=
  { c with stats.compileFailures := c.stats.compileFailures + 1 }.setEntry pc .failed

/-- Take in the result of a compilation. -/
def install (c : Control) (pc : UInt64) : Except CompileError Block → Control
  | .ok block => c.setEntry pc (.compiled block)
  | .error _ => c.fail pc

/-- Begin the compilation of an entry; without a worker, also finish it. -/
def compile (c : Control) (mem : Memory) (pc : UInt64) : Control :=
  let c := { c with stats.compilations := c.stats.compilations + 1 }.setEntry pc .compiling
  match fetchBlock mem c.settings.maxBlockLength.toNat pc with
  | .error _ => c.fail pc
  | .ok words =>
    match c.worker with
    | some worker => { c with worker := some (worker.submit ⟨pc, words, c.epoch⟩) }
    | none => c.install pc (Block.compile pc words)

/-! ### Results of the worker -/

/-- Take in a finished compilation, unless it is from an earlier epoch. -/
def accept (c : Control) (done : Compiled) : Control :=
  if done.epoch = c.epoch ∧ (c.blocks[done.start]?.any Entry.isCompiling) then
    c.install done.start done.result
  else c

/-- Take in what the worker has finished. -/
def drain (c : Control) : Control :=
  match c.worker with
  | none => c
  | some worker =>
    let (finished, worker) := worker.receive
    finished.foldl accept { c with worker := some worker }

/-- Wait until every compilation has come back, and take it in. -/
def await (c : Control) : Control :=
  match c.worker with
  | none => c
  | some worker =>
    let (finished, worker) := worker.receiveAll
    finished.foldl accept { c with worker := some worker }

/-- The worker does its oldest job. -/
def work (c : Control) : Control := { c with worker := c.worker.map Worker.work }

/-! ### Visits -/

/-- Submit the deferred entry, once execution is at another entry. -/
def submitDeferred (c : Control) (mem : Memory) (pc : UInt64) : Control :=
  match c.deferred with
  | none => c
  | some entry =>
    if entry = pc then c
    else
      let c := { c with deferred := none }
      if c.blocks[entry]?.any Entry.isOpen then c.compile mem entry else c

/-- Count a visit of an interpreted entry, and compile or defer the entry if that makes it hot. -/
def countVisit (c : Control) (mem : Memory) (pc : UInt64) (hits : Nat) (pinned : Bool) : Control :=
  let hits := min (hits + 1) Entry.maxHits
  let c := c.setEntry pc (.interpreting hits pinned)
  if pinned || hits < c.settings.hotThreshold.toNat then c
  else if c.worker.isSome then { c with deferred := some pc }
  else c.compile mem pc

/-- Visit the block entry `pc`: the block to run, if the entry is compiled. -/
def visit (c : Control) (mem : Memory) (pc : UInt64) : Option Block × Control :=
  if c.settings.jit then
    let c := c.drain.submitDeferred mem pc
    match c.blocks[pc]?.getD .unvisited with
    | .compiled block => (some block, c)
    | .compiling => (none, c)
    | .interpreting hits pinned =>
      let c := c.countVisit mem pc hits pinned
      (c.blocks[pc]?.bind Entry.block?, c)
  else (none, c)

end Control

end AlphaMachine
