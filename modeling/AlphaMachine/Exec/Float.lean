import AlphaMachine.Exec.Outcome
import AlphaMachine.Float.Image
import AlphaMachine.Isa.Operation

/-!
# Floating operate instructions

Registers hold S-format values widened to T format, so arithmetic runs on doubles and
single-precision results are rounded to single and widened again.  Rounding is to nearest, except
that the conversion to a quadword can chop.

Moves, sign copies and conditions work on register images, bit for bit.

A `Float` has one NaN, so every result that is not a number has the canonical image, whatever the
payloads and signs of the operands.  The host instructions compute by the same operations
(`Host.SseOp.double`), so a NaN is the same NaN either way.
-/

namespace AlphaMachine

/-! ### Conditions -/

/-- Whether a floating image satisfies a condition; zeros of both signs are zero. -/
def FloatCondition.holds (condition : FloatCondition) (image : UInt64) : Bool :=
  let zero := FloatImage.isZero image
  let negative := FloatImage.isNegative image
  match condition with
  | .eq => zero
  | .ne => !zero
  | .lt => negative && !zero
  | .ge => !negative || zero
  | .le => negative || zero
  | .gt => !negative && !zero

/-! ### Arithmetic on images -/

namespace FloatImage

/-- Round a double to single precision and widen it again. -/
def roundSingle (value : Float) : Float := value.toFloat32.toFloat

/-- The image of a result in a precision. -/
def ofResult (precision : Precision) (value : Float) : UInt64 :=
  match precision with
  | .single => (roundSingle value).toBits
  | .double => value.toBits

/-- The result of arithmetic on two images. -/
def arith (op : FloatArith) (precision : Precision) (a b : UInt64) : UInt64 :=
  let x := Float.ofBits a
  let y := Float.ofBits b
  ofResult precision <| match op with
    | .add => x + y
    | .sub => x - y
    | .mul => x * y
    | .div => x / y

/-- The square root of an image. -/
def sqrt (precision : Precision) (b : UInt64) : UInt64 :=
  ofResult precision (Float.ofBits b).sqrt

/-- The image of a true comparison, two. -/
def trueImage : UInt64 := 0x4000000000000000

/-- Whether a relation holds between two images. -/
def compare (relation : FloatComparison) (a b : UInt64) : Bool :=
  let x := Float.ofBits a
  let y := Float.ofBits b
  match relation with
  | .unordered => isNaN a || isNaN b
  | .eq => x == y
  | .lt => decide (x < y)
  | .le => decide (x ≤ y)

/-- The image of a signed quadword in a precision. -/
def ofQuad (precision : Precision) (q : UInt64) : UInt64 :=
  match precision with
  | .single => q.toInt64.toFloat32.toFloat.toBits
  | .double => q.toInt64.toFloat.toBits

/-- The bits of `a` selected by a sign copy, completed with the bits of `b`. -/
def copySign (bits : SignCopy) (a b : UInt64) : UInt64 :=
  match bits with
  | .sign => a &&& sign ||| b &&& ~~~sign
  | .negatedSign => ~~~a &&& sign ||| b &&& ~~~sign
  | .signExponent => a &&& signExponent ||| b &&& ~~~signExponent

end FloatImage

/-! ### Function bits with a meaning of their own -/

/-- Whether the qualifiers of a conversion to a quadword ask for chopping. -/
def isChopped (function : Nat) : Bool := function / 0x40 % 4 = 0

/-- Whether the qualifiers say that the operand of a rounding is in S format already. -/
def isSingleCopy (function : Nat) : Bool := function % 0x400 = Opcode.cvtstFunction

/-- Whether the qualifiers of a conversion to a longword ask for an overflow check. -/
def checksOverflow (function : Nat) : Bool := function.testBit 8

/-! ### Execution -/

namespace FloatOp

/-- The effect of a floating operate instruction at `pc`, given that floating instructions are
enabled. -/
def runEnabled (op : FloatOp) (pc : UInt64) (fa fb : Reg) (function : Nat) (fc : Reg)
    (m : Machine) : Outcome :=
  let a := m.cpu.readFp fa
  let b := m.cpu.readFp fb
  match op with
  | .moveFromInt .single => m.returnFp fc (FloatImage.ofSingle (m.cpu.readInt fa).toUInt32)
  | .moveFromInt .double => m.returnFp fc (m.cpu.readInt fa)
  | .sqrt precision => m.returnFp fc (FloatImage.sqrt precision b)
  | .arith .div precision =>
    if Float.ofBits b == 0 then m.raise .floatDivideByZero pc
    else m.returnFp fc (FloatImage.arith .div precision a b)
  | .arith op precision => m.returnFp fc (FloatImage.arith op precision a b)
  | .compare relation =>
    m.returnFp fc (if FloatImage.compare relation a b then FloatImage.trueImage else 0)
  | .roundSingle =>
    m.returnFp fc
      (if isSingleCopy function then b else FloatImage.ofResult .single (Float.ofBits b))
  | .toQuad => m.returnFp fc (FloatImage.toQuad b (isChopped function))
  | .ofQuad precision => m.returnFp fc (FloatImage.ofQuad precision b)
  | .longToQuad => m.returnFp fc (signExtendLong (FloatImage.toSingle b).toUInt64)
  | .quadToLong =>
    if checksOverflow function ∧ signExtendLong b ≠ b then
      .trapped { m with cpu.fpcr := m.cpu.fpcr ||| (Fpcr.integerOverflow ||| Fpcr.sum) }
        ⟨.integerOverflow, pc, none⟩
    else m.returnFp fc (FloatImage.ofLong b)
  | .copySign bits => m.returnFp fc (FloatImage.copySign bits a b)
  | .writeControl => .done { m with cpu.fpcr := a } .next
  | .readControl => m.returnFp fa m.cpu.fpcr
  | .moveIf condition => if condition.holds a then m.returnFp fc b else m.skip

/-- The effect of a floating operate instruction at `pc`. -/
def run (op : FloatOp) (pc : UInt64) (fa fb : Reg) (function : Nat) (fc : Reg) (m : Machine) :
    Outcome :=
  m.requireFp pc (op.runEnabled pc fa fb function fc m)

end FloatOp

end AlphaMachine
