import AlphaMachine.Block.Lowering
import AlphaMachine.Exec.Execute
import AlphaMachine.Proofs.Host.Meaning

/-!
# Meaning of the code of a block

The symbolic code of a block, run line by line.  Jumps only lead forward within the code of an
instruction, so a run needs no address: it is either executing, or on its way to a label and
passing over the lines before it.  `Block.exec` runs some code from its first line; what it says
in the end is whether execution ran off the end of the code or left it for a label.

The helpers are called by address.  They find the machine through the frame of the run
(`Block.Linkage`), and after a call every register that a callee need not keep has some arbitrary
value.
-/

namespace AlphaMachine

namespace Block

open Host

/-! ### Helpers -/

/-- What the code of a block is linked with, and the frame of its run. -/
structure Linkage where
  /-- The address of the processor state. -/
  state : UInt64
  /-- The address of the frame. -/
  frame : UInt64
  /-- The address of the first instruction of the block. -/
  start : UInt64
  /-- The cycle count with which the block was entered. -/
  cycles : UInt64
  /-- The address of a helper. -/
  address : Helper → UInt64
  /-- The helper at an address. -/
  helperAt : UInt64 → Option Helper
  /-- Helpers are found at their addresses. -/
  helperAt_address : ∀ helper, helperAt (address helper) = some helper
  /-- The general registers that a call leaves behind. -/
  clobbered : Host.State → Gpr → UInt64
  /-- The SSE registers that a call leaves behind. -/
  clobberedXmm : Host.State → Xmm → XmmValue
  /-- What a call leaves behind below the stack pointer. -/
  clobberedStack : Host.State → UInt64 → UInt64

/-- The access size that a helper is asked for. -/
def accessSize (bytes : UInt64) : AccessSize := (AccessSize.ofBytes? bytes.toNat).getD .quad

/-- The machine with a trap in the pending slot. -/
def pend (m : Machine) (trap : Trap) : Machine := { m with cpu := m.cpu.setPendingTrap trap }

/-- Load from guest memory; a failed access leaves a trap behind and gives zero. -/
def helpLoad (m : Machine) (address bytes : UInt64) : UInt64 × Machine :=
  match m.mem.load address (accessSize bytes) with
  | .ok value => (value, m)
  | .error fault => (0, pend m (Trap.ofFault fault 0))

/-- Store to guest memory; a failed access leaves a trap behind. -/
def helpStore (m : Machine) (address value bytes : UInt64) : Machine :=
  match m.storeInt 0 address (accessSize bytes) value with
  | .done m _ => m
  | .trapped m trap => pend m trap

/-- Whether a sum or a difference overflows. -/
def helpOverflows (result a b mode : UInt64) : UInt64 :=
  let width : Width := if mode &&& 2 ≠ 0 then .long else .quad
  (width.codes result a b (mode &&& 1 ≠ 0)).overflow.toUInt64

/-- Execute the instruction `word` at `pc`: the address of the next instruction, the machine, and
whether compiled code has to be discarded. -/
def helpInterpret (link : Linkage) (m : Machine) (word : UInt32) (pc : UInt64) :
    UInt64 × Machine × Bool :=
  let cycles := link.cycles + (pc - link.start) / 4
  let restore (m' : Machine) : Machine := { m' with cpu.cycles := m.cpu.cycles }
  match execute word pc { m with cpu.cycles := cycles } with
  | .done m flow => (flow.nextPc pc, restore m, flow = .flush)
  | .trapped m trap => (trap.pc, pend (restore m) trap, false)

namespace Linkage

/-- The state after a call that returns `value`: the callee keeps `rbx`, `rsp`, `r12` and the
stack from the stack pointer up. -/
def returned (link : Linkage) (s : Host.State) (value : UInt64) (guest : Machine) : Host.State :=
  { s with
    gpr := fun
      | .rax => value
      | .rbx => s.gpr .rbx
      | .rsp => s.gpr .rsp
      | .r12 => s.gpr .r12
      | r => link.clobbered s r
    xmm := link.clobberedXmm s
    flags := .undefined
    stack := fun a => if s.gpr .rsp ≤ a then s.stack a else link.clobberedStack s a
    guest := guest }

/-- Call a helper, which takes its arguments from `rdi`, `rsi`, `rdx` and `rcx`. -/
def callHelper (link : Linkage) (s : Host.State) : Helper → Option Host.State
  | .load =>
    if s.gpr .rdi = link.frame then
      let (value, guest) := helpLoad s.guest (s.gpr .rsi) (s.gpr .rdx)
      some (link.returned s value guest)
    else none
  | .store =>
    if s.gpr .rdi = link.frame then
      let guest := helpStore s.guest (s.gpr .rsi) (s.gpr .rdx) (s.gpr .rcx)
      some (link.returned s (link.clobbered s .rax) guest)
    else none
  | .interpret =>
    if s.gpr .rdi = link.frame then
      let (next, guest, flush) := helpInterpret link s.guest (s.gpr .rsi).toUInt32 (s.gpr .rdx)
      some { link.returned s next guest with flush := s.flush || flush }
    else none
  | .overflows =>
    let value := helpOverflows (s.gpr .rdi) (s.gpr .rsi) (s.gpr .rdx) (s.gpr .rcx)
    some (link.returned s value s.guest)

/-- The environment of the code. -/
def environment (link : Linkage) : Environment where
  base := link.state
  call address s := (link.helperAt address).bind (link.callHelper s)

end Linkage

/-! ### Code -/

/-- Where a run is: executing, or on its way to a label. -/
abbrev Position := Option Label × Host.State

/-- One line of code. -/
def execLine (link : Linkage) (position : Position) (line : Line Label Helper) : Option Position :=
  match position, line with
  | (some target, s), .bind label => some (if label = target then none else some target, s)
  | (some target, s), _ => some (some target, s)
  | (none, s), .instr i => (i.step link.environment s).map (none, ·)
  | (none, s), .address dst helper => some (none, s.set dst (link.address helper))
  | (none, s), .jump label => some (some label, s)
  | (none, s), .jumpIf cond label =>
    (cond.holds? s.flags).map fun taken => (if taken then some label else none, s)
  | (none, s), .bind _ => some (none, s)

/-- Run code from a position. -/
def execFrom (link : Linkage) (code : Code) (position : Position) : Option Position :=
  code.foldlM (execLine link) position

/-- Run code from its first line. -/
def exec (link : Linkage) (code : Code) (s : Host.State) : Option Position :=
  execFrom link code (none, s)

end Block

end AlphaMachine
