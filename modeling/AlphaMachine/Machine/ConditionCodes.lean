/-!
# Condition codes of integer arithmetic

The machine has no flags register.  Where an instruction must know about overflow or order, the
codes are computed from the operands and the wrapped result of an addition or a subtraction.

* `ConditionCodes.quad` looks at 64-bit words;
* `ConditionCodes.long` looks at the low 32 bits only.
-/

namespace AlphaMachine

/-- Flags of an addition or a subtraction. -/
structure ConditionCodes where
  /-- The result is zero. -/
  zero : Bool
  /-- The sign bit of the result is set. -/
  negative : Bool
  /-- The signed result does not fit. -/
  overflow : Bool
  /-- The carry of an addition or the borrow of a subtraction. -/
  carry : Bool
  deriving DecidableEq

namespace ConditionCodes

/-- After `a - b`: whether `a < b` as signed numbers. -/
def less (cc : ConditionCodes) : Bool := cc.negative != cc.overflow

/-- After `a - b`: whether `a < b` as unsigned numbers. -/
def below (cc : ConditionCodes) : Bool := cc.carry

/-- Signed overflow by sign bits: a sum overflows when both operands have one sign and the result
the other, a difference when the operand signs differ and the result's sign is not that of
`a`. -/
def signOverflow (signA signB signR subtract : Bool) : Bool :=
  if subtract then signA != signB && signR != signA else signA == signB && signR != signA

/-- Codes of `result = a ± b` on quadwords. -/
def quad (result a b : UInt64) (subtract : Bool) : ConditionCodes where
  zero := result == 0
  negative := result >>> 63 == 1
  overflow := signOverflow (a >>> 63 == 1) (b >>> 63 == 1) (result >>> 63 == 1) subtract
  carry := if subtract then decide (a < b) else decide (result < a)

/-- Codes of `result = a ± b` on longwords. -/
def long (result a b : UInt64) (subtract : Bool) : ConditionCodes :=
  let r := result.toUInt32
  let a := a.toUInt32
  let b := b.toUInt32
  { zero := r == 0
    negative := r >>> 31 == 1
    overflow := signOverflow (a >>> 31 == 1) (b >>> 31 == 1) (r >>> 31 == 1) subtract
    carry := if subtract then decide (a < b) else decide (r < a) }

end ConditionCodes

end AlphaMachine
