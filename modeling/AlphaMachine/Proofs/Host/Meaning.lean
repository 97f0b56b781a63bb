import AlphaMachine.Exec.Integer
import AlphaMachine.Exec.Float
import AlphaMachine.Host.Instr
import AlphaMachine.Machine.Layout

/-!
# Meaning of host instructions

What the x86-64 instructions of compiled code do.  A host state has the general registers, the SSE
registers, the flags that conditions read, a stack, and the guest machine, whose processor state is
the only other memory that instructions access: quadwords of it are reached through
`Host.Field.at?`, the byte that enables floating instructions by its offset.

`Host.Instr.step` has no result where an instruction has no defined one: a condition on a flag
that is undefined, an access to anything else than the processor state, a call of an unknown
address.  What a call does is left to the `Host.Environment`.

SSE arithmetic is that of `Float` and `Float32`, which have one NaN each: a result that is not a
number has the canonical image, whatever the payloads and signs of the operands.  The guest's
arithmetic is that of `Float` too (`FloatImage.arith`).
-/

namespace AlphaMachine

namespace Host

/-! ### Flags and conditions -/

/-- The flags that conditions read; an undefined flag has no value. -/
structure Flags where
  /-- The result is zero. -/
  zero : Option Bool
  /-- The sign bit of the result. -/
  sign : Option Bool
  /-- The signed result does not fit. -/
  overflow : Option Bool
  /-- The unsigned result does not fit. -/
  carry : Option Bool

namespace Flags

/-- Nothing is known. -/
def undefined : Flags := ⟨none, none, none, none⟩

/-- The flags of a result. -/
def ofResult {w : Nat} (result : BitVec w) (overflow carry : Option Bool) : Flags :=
  ⟨some (result == 0), some result.msb, overflow, carry⟩

/-- After a signed compare: less. -/
def less? (f : Flags) : Option Bool := do return (← f.sign) != (← f.overflow)

end Flags

/-- Whether a condition holds, if the flags it reads are defined; parity is not kept. -/
def Cond.holds? (f : Flags) : Cond → Option Bool
  | .o => f.overflow
  | .no => f.overflow.map not
  | .b => f.carry
  | .ae => f.carry.map not
  | .e => f.zero
  | .ne => f.zero.map not
  | .be => do return (← f.carry) || (← f.zero)
  | .a => do return !((← f.carry) || (← f.zero))
  | .s => f.sign
  | .ns => f.sign.map not
  | .p | .np => none
  | .l => f.less?
  | .ge => f.less?.map not
  | .le => do return (← f.zero) || (← f.less?)
  | .g => do return !((← f.zero) || (← f.less?))

/-! ### Integer operations -/

namespace AluOp

/-- The result. -/
def value {w : Nat} (op : AluOp) (a b : BitVec w) : BitVec w :=
  match op with
  | .add => a + b
  | .or => a ||| b
  | .and | .test => a &&& b
  | .sub | .cmp => a - b
  | .xor => a ^^^ b
  | .mov => b

/-- The flags afterwards; moves leave them alone. -/
def flags {w : Nat} (op : AluOp) (a b : BitVec w) (old : Flags) : Flags :=
  match op with
  | .add => .ofResult (a + b) (some (a.saddOverflow b)) (some (a.uaddOverflow b))
  | .sub | .cmp => .ofResult (a - b) (some (a.ssubOverflow b)) (some (a.usubOverflow b))
  | .mov => old
  | op => .ofResult (op.value a b) (some false) (some false)

/-- Whether the result is kept: compares only set flags. -/
def writes : AluOp → Bool
  | .cmp | .test => false
  | _ => true

/-- The result at an operand size; a dword result clears the upper half. -/
def sized (op : AluOp) (size : OpSize) (a b : UInt64) : UInt64 :=
  match size with
  | .dword => (UInt32.ofBitVec (op.value a.toUInt32.toBitVec b.toUInt32.toBitVec)).toUInt64
  | .qword => .ofBitVec (op.value a.toBitVec b.toBitVec)

/-- The flags at an operand size. -/
def sizedFlags (op : AluOp) (size : OpSize) (a b : UInt64) (old : Flags) : Flags :=
  match size with
  | .dword => op.flags a.toUInt32.toBitVec b.toUInt32.toBitVec old
  | .qword => op.flags a.toBitVec b.toBitVec old

end AluOp

/-- The count of a shift: only its low bits matter. -/
def OpSize.shiftCount (size : OpSize) (count : UInt8) : UInt8 :=
  match size with
  | .dword => count &&& 31
  | .qword => count &&& 63

/-- The result of a shift by a count in range. -/
def ShiftOp.sized (op : ShiftOp) (size : OpSize) (a : UInt64) (count : UInt8) : UInt64 :=
  match size, op with
  | .qword, .shl => a <<< count.toUInt64
  | .qword, .shr => a >>> count.toUInt64
  | .qword, .sar => (a.toInt64 >>> count.toUInt64.toInt64).toUInt64
  | .dword, .shl => (a.toUInt32 <<< count.toUInt32).toUInt64
  | .dword, .shr => (a.toUInt32 >>> count.toUInt32).toUInt64
  | .dword, .sar => (a.toUInt32.toInt32 >>> count.toUInt32.toInt32).toUInt32.toUInt64

/-- The flags of a result by its size, the others undefined. -/
def OpSize.resultFlags (size : OpSize) (result : UInt64) : Flags :=
  match size with
  | .dword => .ofResult result.toUInt32.toBitVec none none
  | .qword => .ofResult result.toBitVec none none

/-- The low bits of a product. -/
def OpSize.product (size : OpSize) (a b : UInt64) : UInt64 :=
  match size with
  | .dword => (a.toUInt32 * b.toUInt32).toUInt64
  | .qword => a * b

/-- Whether the signed product does not fit. -/
def OpSize.productOverflows (size : OpSize) (a b : UInt64) : Bool :=
  match size with
  | .dword => a.toUInt32.toBitVec.smulOverflow b.toUInt32.toBitVec
  | .qword => a.toBitVec.smulOverflow b.toBitVec

/-- Sign-extend to 64 bits. -/
def Narrow.signExtend (source : Narrow) (value : UInt64) : UInt64 :=
  match source with
  | .byte => value.toUInt8.toInt8.toInt64.toUInt64
  | .word => value.toUInt16.toInt16.toInt64.toUInt64
  | .dword => value.toUInt32.toInt32.toInt64.toUInt64

/-- Zero-extend to 64 bits. -/
def Short.zeroExtend (source : Short) (value : UInt64) : UInt64 :=
  match source with
  | .byte => value.toUInt8.toUInt64
  | .word => value.toUInt16.toUInt64

/-- An immediate as a word. -/
def immediate (imm : Int32) : UInt64 := imm.toInt64.toUInt64

/-! ### SSE registers -/

/-- The contents of an SSE register. -/
structure XmmValue where
  /-- The low quadword. -/
  low : UInt64
  /-- The high quadword. -/
  high : UInt64

/-- Combine the bytes of two words. -/
def zipBytes (f : UInt8 → UInt8 → UInt8) (a b : UInt64) : UInt64 :=
  .ofNat (Bytes.littleEndian
    ((List.range 8).map fun i => f (Integer.byteAt a i) (Integer.byteAt b i)))

/-- Combine the bytes of two registers. -/
def XmmValue.zipBytes (f : UInt8 → UInt8 → UInt8) (a b : XmmValue) : XmmValue :=
  ⟨Host.zipBytes f a.low b.low, Host.zipBytes f a.high b.high⟩

/-- The top bits of the bytes of a word. -/
def topBits (a : UInt64) : UInt64 :=
  (List.range 8).foldl
    (fun mask i => if 0x80 ≤ Integer.byteAt a i then mask ||| 1 <<< i.toUInt64 else mask) 0

/-- Replace the low dword. -/
def setLowDword (word : UInt64) (dword : UInt32) : UInt64 :=
  word &&& 0xFFFFFFFF00000000 ||| dword.toUInt64

/-- Arithmetic on doubles. -/
def SseOp.double (op : SseOp) (a b : Float) : Float :=
  match op with
  | .sqrt => b.sqrt
  | .add => a + b
  | .mul => a * b
  | .sub => a - b
  | .div => a / b

/-- Arithmetic on singles. -/
def SseOp.single (op : SseOp) (a b : Float32) : Float32 :=
  match op with
  | .sqrt => b.sqrt
  | .add => a + b
  | .mul => a * b
  | .sub => a - b
  | .div => a / b

/-- The low quadword after arithmetic; arithmetic on singles leaves its upper half alone. -/
def SseOp.sized (op : SseOp) (precision : Scalar) (a b : UInt64) : UInt64 :=
  match precision with
  | .double => (op.double (.ofBits a) (.ofBits b)).toBits
  | .single =>
    setLowDword a (op.single (.ofBits a.toUInt32) (.ofBits b.toUInt32)).toBits

/-- The flags of a compare of doubles. -/
def compareDoubles (a b : Float) : Flags :=
  if a.isNaN || b.isNaN then ⟨some true, some false, some false, some true⟩
  else ⟨some (a == b), some false, some false, some (decide (a < b))⟩

/-! ### The processor state as memory -/

/-- The quadwords of the processor state that compiled code accesses. -/
inductive Field where
  /-- An integer register. -/
  | int (r : Reg)
  /-- A floating register. -/
  | fp (r : Reg)
  /-- The code of the pending trap. -/
  | pendingTrap
  /-- The data address of the pending trap. -/
  | pendingTrapAddr
  deriving DecidableEq

namespace Field

/-- The field at an offset. -/
def at? (offset : Nat) : Option Field :=
  if offset = Layout.pendingTrap then some .pendingTrap
  else if offset = Layout.pendingTrapAddr then some .pendingTrapAddr
  else if offset % 8 = 0 then
    if h : offset / 8 < 32 then some (.int ⟨offset / 8, h⟩)
    else if h : offset / 8 - 32 < 32 then some (.fp ⟨offset / 8 - 32, h⟩)
    else none
  else none

/-- The value of a field; register 31 has a slot of its own. -/
def read (cpu : Processor) : Field → UInt64
  | .int r => cpu.int.get r
  | .fp r => cpu.fp.get r
  | .pendingTrap => cpu.pendingTrap
  | .pendingTrapAddr => cpu.pendingTrapAddr

/-- Set a field. -/
def write (cpu : Processor) (value : UInt64) : Field → Processor
  | .int r => { cpu with int := RegisterFile.setSlot cpu.int r value }
  | .fp r => { cpu with fp := RegisterFile.setSlot cpu.fp r value }
  | .pendingTrap => { cpu with pendingTrap := value }
  | .pendingTrapAddr => { cpu with pendingTrapAddr := value }

end Field

/-! ### States -/

/-- The state of the host. -/
structure State where
  /-- The general registers. -/
  gpr : Gpr → UInt64
  /-- The SSE registers. -/
  xmm : Xmm → XmmValue
  /-- The flags. -/
  flags : Flags
  /-- The quadwords of the stack, by address. -/
  stack : UInt64 → UInt64
  /-- The guest machine. -/
  guest : Machine
  /-- Whether an instruction of the block asked to discard compiled code. -/
  flush : Bool

/-- What host code runs in. -/
structure Environment where
  /-- The address of the processor state. -/
  base : UInt64
  /-- What a call of an address does. -/
  call : UInt64 → State → Option State

namespace State

/-- Set a general register. -/
def set (s : State) (r : Gpr) (value : UInt64) : State :=
  { s with gpr := fun r' => if r' = r then value else s.gpr r' }

/-- Set an SSE register. -/
def setXmm (s : State) (r : Xmm) (value : XmmValue) : State :=
  { s with xmm := fun r' => if r' = r then value else s.xmm r' }

/-- The quadwords of the stack that are in use; what lies below the stack pointer is free. -/
def liveStack (s : State) (a : UInt64) : Option UInt64 :=
  if s.gpr .rsp ≤ a then some (s.stack a) else none

/-- The offset of a memory operand in the processor state. -/
def offset (env : Environment) (s : State) (base : Gpr) (disp : Int32) : Nat :=
  (s.gpr base + immediate disp - env.base).toNat

/-- Read a quadword. -/
def readQuad (env : Environment) (s : State) (base : Gpr) (disp : Int32) : Option UInt64 :=
  (Field.at? (s.offset env base disp)).map (Field.read s.guest.cpu)

/-- Write a quadword. -/
def writeQuad (env : Environment) (s : State) (base : Gpr) (disp : Int32) (value : UInt64) :
    Option State :=
  (Field.at? (s.offset env base disp)).map fun field =>
    { s with guest.cpu := field.write s.guest.cpu value }

/-- Read a byte. -/
def readByte (env : Environment) (s : State) (base : Gpr) (disp : Int32) : Option UInt8 :=
  if s.offset env base disp = Layout.fpEnabled then some s.guest.cpu.fpEnabled.toUInt8 else none

end State

/-! ### Instructions -/

/-- Execute an instruction; returns are not part of the code of an instruction. -/
def Instr.step (env : Environment) (i : Instr) (s : State) : Option State :=
  match i with
  | .callReg reg => env.call (s.gpr reg) s
  | .ret => none
  | .push reg =>
    let top := s.gpr .rsp - 8
    some { s.set .rsp top with stack := fun a => if a = top then s.gpr reg else s.stack a }
  | .pop reg => some ((s.set .rsp (s.gpr .rsp + 8)).set reg (s.stack (s.gpr .rsp)))
  | .alu op size dst src =>
    let flags := op.sizedFlags size (s.gpr dst) (s.gpr src) s.flags
    some { (if op.writes then s.set dst (op.sized size (s.gpr dst) (s.gpr src)) else s) with flags }
  | .aluImm op size dst imm =>
    let flags := op.sizedFlags size (s.gpr dst) (immediate imm) s.flags
    some { (if op.writes then s.set dst (op.sized size (s.gpr dst) (immediate imm)) else s) with
      flags }
  | .movImm dst imm => some (s.set dst imm)
  | .not size reg => some (s.set reg (AluOp.sized .xor size (s.gpr reg) (-1)))
  | .neg size reg =>
    some { s.set reg (AluOp.sized .sub size 0 (s.gpr reg)) with
      flags := AluOp.sizedFlags .sub size 0 (s.gpr reg) s.flags }
  | .shiftImm op size reg imm => some (shifted s op size reg (size.shiftCount imm))
  | .shiftCl op size reg => some (shifted s op size reg (size.shiftCount (s.gpr .rcx).toUInt8))
  | .imul size dst src =>
    let overflow := some (size.productOverflows (s.gpr dst) (s.gpr src))
    some { s.set dst (size.product (s.gpr dst) (s.gpr src)) with
      flags := ⟨none, none, overflow, overflow⟩ }
  | .mulWide src =>
    let product := (s.gpr .rax).toNat * (s.gpr src).toNat
    let overflow := some (decide (UInt64.size ≤ product))
    some { (s.set .rax (.ofNat product)).set .rdx (.ofNat (product >>> 64)) with
      flags := ⟨none, none, overflow, overflow⟩ }
  | .movsx source dst src => some (s.set dst (source.signExtend (s.gpr src)))
  | .movzx source dst src => some (s.set dst (source.zeroExtend (s.gpr src)))
  | .setcc cond reg =>
    (cond.holds? s.flags).map fun holds =>
      s.set reg (s.gpr reg &&& 0xFFFFFFFFFFFFFF00 ||| holds.toUInt64)
  | .cmov cond dst src =>
    (cond.holds? s.flags).map fun holds => if holds then s.set dst (s.gpr src) else s
  | .load dst base disp => (s.readQuad env base disp).map fun value => s.set dst value
  | .store base disp src => s.writeQuad env base disp (s.gpr src)
  | .storeImm base disp imm => s.writeQuad env base disp (immediate imm)
  | .cmpMem base disp imm =>
    (s.readQuad env base disp).map fun value =>
      { s with flags := AluOp.flags .cmp value.toBitVec imm.toInt64.toUInt64.toBitVec s.flags }
  | .cmpMemByte base disp imm =>
    (s.readByte env base disp).map fun value =>
      { s with flags := AluOp.flags .cmp value.toBitVec imm.toBitVec s.flags }
  | .movqToXmm dst src => some (s.setXmm dst ⟨s.gpr src, 0⟩)
  | .movqFromXmm dst src => some (s.set dst (s.xmm src).low)
  | .movsd dst src => some (s.setXmm dst ⟨(s.xmm src).low, (s.xmm dst).high⟩)
  | .sse op precision dst src =>
    some (s.setXmm dst ⟨op.sized precision (s.xmm dst).low (s.xmm src).low, (s.xmm dst).high⟩)
  | .cvtsd2ss dst src =>
    some (s.setXmm dst
      ⟨setLowDword (s.xmm dst).low (Float.ofBits (s.xmm src).low).toFloat32.toBits,
        (s.xmm dst).high⟩)
  | .cvtss2sd dst src =>
    some (s.setXmm dst
      ⟨(Float32.ofBits (s.xmm src).low.toUInt32).toFloat.toBits, (s.xmm dst).high⟩)
  | .ucomisd a b =>
    some { s with flags := compareDoubles (.ofBits (s.xmm a).low) (.ofBits (s.xmm b).low) }
  | .pmaxub dst src => some (s.setXmm dst ((s.xmm dst).zipBytes max (s.xmm src)))
  | .pcmpeqb dst src =>
    some (s.setXmm dst
      ((s.xmm dst).zipBytes (fun a b => if a = b then 0xFF else 0) (s.xmm src)))
  | .pmovmskb dst src =>
    some (s.set dst (topBits (s.xmm src).low ||| topBits (s.xmm src).high <<< 8))
where
  /-- Shift by a count in range; a shift by zero leaves the flags alone. -/
  shifted (s : State) (op : ShiftOp) (size : OpSize) (reg : Gpr) (count : UInt8) : State :=
    let result := op.sized size (s.gpr reg) count
    { s.set reg result with flags := if count = 0 then s.flags else size.resultFlags result }

end Host

end AlphaMachine
