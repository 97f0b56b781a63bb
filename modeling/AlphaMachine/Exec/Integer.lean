import AlphaMachine.Exec.Outcome
import AlphaMachine.Isa.Operation
import AlphaMachine.Float.Image
import AlphaMachine.Machine.ConditionCodes

/-!
# Integer operate instructions

The values of the integer operations, as functions of 64-bit words, and `OperateOp.run`, which
writes them to the destination register.
-/

namespace AlphaMachine

/-! ### Arithmetic -/

/-- The wrapped sum or difference. -/
def AddSub.apply : AddSub → UInt64 → UInt64 → UInt64
  | .add, a, b => a + b
  | .sub, a, b => a - b

/-- The register form of a result: longword results are sign-extended. -/
def Width.extend : Width → UInt64 → UInt64
  | .long, value => signExtendLong value
  | .quad, value => value

/-- The condition codes of an operation of this width. -/
def Width.codes : Width → (result a b : UInt64) → (subtract : Bool) → ConditionCodes
  | .long => ConditionCodes.long
  | .quad => ConditionCodes.quad

/-- A word read as a signed number of this width. -/
def Width.toInt : Width → UInt64 → Int
  | .long, value => value.toUInt32.toInt32.toInt
  | .quad, value => value.toInt64.toInt

/-- The number of bits. -/
def Width.bits : Width → Nat
  | .long => 32
  | .quad => 64

namespace Integer

/-- Sum or difference with a scaled first operand. -/
def arith (op : AddSub) (scale : Nat) (width : Width) (a b : UInt64) : UInt64 :=
  width.extend (op.apply (a <<< scale.toUInt64) b)

/-- Sum or difference, unless it overflows. -/
def arithChecked (op : AddSub) (width : Width) (a b : UInt64) : Option UInt64 :=
  let result := op.apply a b
  if (width.codes result a b (op = .sub)).overflow then none else some (width.extend result)

/-- Product, unless it overflows. -/
def multiplyChecked (width : Width) (a b : UInt64) : Option UInt64 :=
  let product := width.toInt a * width.toInt b
  let half : Nat := 1 <<< (width.bits - 1)
  if -half ≤ product ∧ product < half then some (UInt64.ofInt product) else none

/-- The high quadword of the unsigned product. -/
def multiplyHigh (a b : UInt64) : UInt64 := UInt64.ofNat ((a.toNat * b.toNat) >>> 64)

/-! ### Compares -/

/-- Whether a relation holds, decided by the codes of the difference. -/
def compare (relation : Comparison) (a b : UInt64) : Bool :=
  let cc := ConditionCodes.quad (a - b) a b true
  match relation with
  | .eq => a == b
  | .lt => cc.less
  | .le => cc.less || cc.zero
  | .ult => cc.below
  | .ule => cc.below || cc.zero

/-- Byte `i` of a word. -/
def byteAt (value : UInt64) (i : Nat) : UInt8 := (value >>> (8 * i).toUInt64).toUInt8

/-- Bit `i` says whether byte `i` of `a` is at least byte `i` of `b`. -/
def compareBytes (a b : UInt64) : UInt64 :=
  (List.range 8).foldl
    (fun mask i => if byteAt b i ≤ byteAt a i then mask ||| 1 <<< i.toUInt64 else mask) 0

/-! ### Bitwise operations -/

/-- Bitwise operation with an optional complement of the second operand. -/
def logic (op : Logic) (complement : Bool) (a b : UInt64) : UInt64 :=
  let b := if complement then ~~~b else b
  match op with
  | .and => a &&& b
  | .or => a ||| b
  | .xor => a ^^^ b

/-- The feature bits of this implementation: byte and word accesses, square roots and moves,
counts. -/
def features : UInt64 := 0x7

/-- The implementation version of this machine. -/
def version : UInt64 := 2

/-- Shift by the low six bits of `b`. -/
def shift (direction : Shift) (a b : UInt64) : UInt64 :=
  let count := b &&& 63
  match direction with
  | .left => a <<< count
  | .right => a >>> count
  | .rightArith => (a.toInt64 >>> count.toInt64).toUInt64

/-! ### Byte manipulation -/

/-- Keep the bytes of `value` whose bit is set in `mask`. -/
def zapNot (value mask : UInt64) : UInt64 :=
  (List.range 8).foldl
    (fun out i =>
      if mask.toNat.testBit i then out ||| value &&& 0xFF <<< (8 * i).toUInt64 else out) 0

/-- Clear the bytes of `value` whose bit is set in `mask`. -/
def zap (value mask : UInt64) : UInt64 := zapNot value (~~~mask)

/-- One bit for each byte of a datum. -/
def sizeMask (size : AccessSize) : UInt64 := UInt64.ofNat (1 <<< size.bytes - 1)

/-- The bytes of the low or the high quadword that a datum at byte `offset` occupies. -/
def fieldMask (half : Half) (size : AccessSize) (offset : UInt64) : UInt64 :=
  match half with
  | .low => sizeMask size <<< offset &&& 0xFF
  | .high => (sizeMask size <<< offset) >>> 8

/-- Extract, insert or mask a datum; the low three bits of `b` are its byte offset. -/
def byteField (action : ByteAction) (half : Half) (size : AccessSize) (a b : UInt64) : UInt64 :=
  let offset := b &&& 7
  match action, half with
  | .extract, .low => zapNot (a >>> (8 * offset)) (sizeMask size)
  | .extract, .high => zapNot (a <<< ((64 - 8 * offset) &&& 63)) (sizeMask size)
  | .insert, .low => zapNot (a <<< (8 * offset)) (fieldMask .low size offset)
  | .insert, .high =>
    if offset = 0 then 0 else zapNot (a >>> (64 - 8 * offset)) (fieldMask .high size offset)
  | .mask, half => zap a (fieldMask half size offset)

/-! ### Counts -/

/-- The number of set bits. -/
def countOnes (value : UInt64) : UInt64 :=
  ((List.range 64).countP fun i => value.toNat.testBit i).toUInt64

/-- The number of zero bits above the highest set one. -/
def countLeadingZeros (value : UInt64) : UInt64 :=
  (((List.range 64).find? fun i => value.toNat.testBit (63 - i)).getD 64).toUInt64

/-- The number of zero bits below the lowest set one. -/
def countTrailingZeros (value : UInt64) : UInt64 :=
  (((List.range 64).find? fun i => value.toNat.testBit i).getD 64).toUInt64

end Integer

/-! ### Conditions -/

/-- Whether a word satisfies a condition. -/
def Condition.holds (condition : Condition) (a : UInt64) : Bool :=
  match condition with
  | .eq => a == 0
  | .ne => a != 0
  | .lt => decide (a.toInt64 < 0)
  | .ge => decide (0 ≤ a.toInt64)
  | .le => decide (a.toInt64 ≤ 0)
  | .gt => decide (0 < a.toInt64)
  | .lowSet => a &&& 1 == 1
  | .lowClear => a &&& 1 == 0

/-! ### Execution -/

namespace OperateOp

/-- The effect of an integer operate instruction at `pc`. -/
def run (op : OperateOp) (pc : UInt64) (ra : Reg) (rb : Operand) (rc : Reg) (m : Machine) :
    Outcome :=
  let a := m.cpu.readInt ra
  let b := m.cpu.readOperand rb
  match op with
  | .arith op scale width => m.returnInt rc (Integer.arith op scale width a b)
  | .arithChecked op width => m.returnChecked pc rc (Integer.arithChecked op width a b)
  | .compare relation => m.returnInt rc (Integer.compare relation a b).toUInt64
  | .compareBytes => m.returnInt rc (Integer.compareBytes a b)
  | .logic op complement => m.returnInt rc (Integer.logic op complement a b)
  | .moveIf condition => if condition.holds a then m.returnInt rc b else m.skip
  | .featureMask => m.returnInt rc (b &&& ~~~Integer.features)
  | .implementationVersion => m.returnInt rc Integer.version
  | .shift direction => m.returnInt rc (Integer.shift direction a b)
  | .zap => m.returnInt rc (Integer.zap a b)
  | .zapNot => m.returnInt rc (Integer.zapNot a b)
  | .byteField action half size => m.returnInt rc (Integer.byteField action half size a b)
  | .multiply width => m.returnInt rc (width.extend (a * b))
  | .multiplyHigh => m.returnInt rc (Integer.multiplyHigh a b)
  | .multiplyChecked width => m.returnChecked pc rc (Integer.multiplyChecked width a b)
  | .signExtendByte => m.returnInt rc b.toUInt8.toInt8.toInt64.toUInt64
  | .signExtendWord => m.returnInt rc b.toUInt16.toInt16.toInt64.toUInt64
  | .countOnes => m.returnInt rc (Integer.countOnes b)
  | .countLeadingZeros => m.returnInt rc (Integer.countLeadingZeros b)
  | .countTrailingZeros => m.returnInt rc (Integer.countTrailingZeros b)
  | .moveFromFloat .double => m.requireFp pc (m.returnInt rc (m.cpu.readFp ra))
  | .moveFromFloat .single =>
    m.requireFp pc
      (m.returnInt rc (signExtendLong (FloatImage.toSingle (m.cpu.readFp ra)).toUInt64))

end OperateOp

end AlphaMachine
