import AlphaMachine.Isa.Instruction
import AlphaMachine.Machine.Memory

/-!
# Operations

What an instruction does once its opcode and function code are resolved.  Operations that differ
only in width, condition or direction share a constructor and carry that difference as an
argument, so each rule of the machine is stated once.
-/

namespace AlphaMachine

/-! ### Variants -/

/-- Operand width of integer arithmetic. -/
inductive Width where
  | long | quad
  deriving DecidableEq

/-- Addition or subtraction. -/
inductive AddSub where
  | add | sub
  deriving DecidableEq

/-- Integer order relations, signed unless marked. -/
inductive Comparison where
  | eq | lt | le | ult | ule
  deriving DecidableEq

/-- Bitwise operations. -/
inductive Logic where
  | and | or | xor
  deriving DecidableEq

/-- Conditions on one integer register: against zero as a signed number, or on its lowest bit. -/
inductive Condition where
  | eq | ne | lt | ge | le | gt | lowSet | lowClear
  deriving DecidableEq

/-- Conditions on one floating register, against zero. -/
inductive FloatCondition where
  | eq | ne | lt | ge | le | gt
  deriving DecidableEq

/-- Shifts. -/
inductive Shift where
  | left | right | rightArith
  deriving DecidableEq

/-- What a byte-manipulation instruction does with the bytes it selects. -/
inductive ByteAction where
  | extract | insert | mask
  deriving DecidableEq

/-- The half of an unaligned datum that a byte-manipulation instruction handles. -/
inductive Half where
  | low | high
  deriving DecidableEq

/-- Floating precision: S format or T format. -/
inductive Precision where
  | single | double
  deriving DecidableEq

/-- Floating arithmetic with two operands. -/
inductive FloatArith where
  | add | sub | mul | div
  deriving DecidableEq

/-- Floating order relations. -/
inductive FloatComparison where
  | unordered | eq | lt | le
  deriving DecidableEq

/-- Which bits a sign copy takes from the first operand. -/
inductive SignCopy where
  /-- The sign. -/
  | sign
  /-- The complement of the sign. -/
  | negatedSign
  /-- The sign and the exponent. -/
  | signExponent
  deriving DecidableEq

/-! ### Operations by format -/

/-- Operations of integer operate instructions. -/
inductive OperateOp where
  /-- Wrapping sum or difference, the first operand shifted left by `scale`. -/
  | arith (op : AddSub) (scale : Nat) (width : Width)
  /-- Sum or difference that traps on overflow. -/
  | arithChecked (op : AddSub) (width : Width)
  /-- One when the relation holds, zero otherwise. -/
  | compare (relation : Comparison)
  /-- One bit per byte: whether the first byte is at least the second. -/
  | compareBytes
  /-- Bitwise operation, with the second operand complemented on request. -/
  | logic (op : Logic) (complement : Bool)
  /-- Move the second operand when the first satisfies a condition. -/
  | moveIf (condition : Condition)
  /-- Clear the bits of the features present. -/
  | featureMask
  /-- The implementation version. -/
  | implementationVersion
  /-- Shift by the low six bits of the second operand. -/
  | shift (direction : Shift)
  /-- Clear the selected bytes. -/
  | zap
  /-- Keep the selected bytes. -/
  | zapNot
  /-- Extract, insert or mask a datum at a byte offset. -/
  | byteField (action : ByteAction) (half : Half) (size : AccessSize)
  /-- Wrapping product. -/
  | multiply (width : Width)
  /-- High quadword of the unsigned product. -/
  | multiplyHigh
  /-- Product that traps on overflow. -/
  | multiplyChecked (width : Width)
  /-- Sign-extend the low bytes of the second operand. -/
  | signExtendByte
  /-- Sign-extend the low two bytes of the second operand. -/
  | signExtendWord
  /-- Number of set bits. -/
  | countOnes
  /-- Number of zero bits above the highest set one. -/
  | countLeadingZeros
  /-- Number of zero bits below the lowest set one. -/
  | countTrailingZeros
  /-- Move a floating image to an integer register, in a precision. -/
  | moveFromFloat (precision : Precision)
  deriving DecidableEq

/-- Operations of floating operate instructions. -/
inductive FloatOp where
  /-- Move an integer register to a floating one, in a precision. -/
  | moveFromInt (precision : Precision)
  /-- Square root. -/
  | sqrt (precision : Precision)
  /-- Arithmetic; a zero divisor traps. -/
  | arith (op : FloatArith) (precision : Precision)
  /-- Two when the relation holds, zero otherwise. -/
  | compare (relation : FloatComparison)
  /-- Round to single precision, or copy when the qualifiers say that the value is single. -/
  | roundSingle
  /-- Convert to a quadword integer. -/
  | toQuad
  /-- Convert from a quadword integer. -/
  | ofQuad (precision : Precision)
  /-- Convert a longword image to a quadword. -/
  | longToQuad
  /-- Convert a quadword to a longword image. -/
  | quadToLong
  /-- Combine the sign of one operand with the rest of the other. -/
  | copySign (bits : SignCopy)
  /-- Write the control register. -/
  | writeControl
  /-- Read the control register. -/
  | readControl
  /-- Move the second operand when the first satisfies a condition. -/
  | moveIf (condition : FloatCondition)
  deriving DecidableEq

/-- Operations of memory-format instructions. -/
inductive MemoryOp where
  /-- Add the displacement. -/
  | loadAddress
  /-- Add the displacement times 65536. -/
  | loadAddressHigh
  /-- Integer load; longwords are sign-extended. -/
  | load (size : AccessSize)
  /-- Load the quadword around an address. -/
  | loadUnaligned
  /-- Load and reserve. -/
  | loadLocked (width : Width)
  /-- Integer store. -/
  | store (size : AccessSize)
  /-- Store the quadword around an address. -/
  | storeUnaligned
  /-- Store while the reservation holds. -/
  | storeConditional (width : Width)
  /-- Floating load in a precision. -/
  | floatLoad (precision : Precision)
  /-- Floating store in a precision. -/
  | floatStore (precision : Precision)
  /-- Jump through a register, linking another. -/
  | jump
  /-- Order earlier against later instructions, which a sequential machine always does. -/
  | barrier
  /-- Read the count of retired instructions. -/
  | readCycles
  /-- Read the interrupt flag and set it to `value`. -/
  | exchangeFlag (value : Bool)
  /-- Hardware access that is only valid inside PALcode. -/
  | privileged
  deriving DecidableEq

/-- Operations of branch-format instructions. -/
inductive BranchOp where
  /-- Branch always, linking the register. -/
  | link
  /-- Branch when an integer register satisfies a condition. -/
  | onInt (condition : Condition)
  /-- Branch when a floating register satisfies a condition. -/
  | onFloat (condition : FloatCondition)
  deriving DecidableEq

/-- The PAL calls. -/
inductive PalOp where
  | halt | breakpoint | systemCall | flushCode | readUnique | writeUnique | generateTrap
  deriving DecidableEq

/-- An operation of any format. -/
inductive Operation where
  /-- Integer operate. -/
  | operate (op : OperateOp)
  /-- Floating operate. -/
  | float (op : FloatOp)
  /-- Memory format. -/
  | memory (op : MemoryOp)
  /-- Branch format. -/
  | branch (op : BranchOp)
  /-- PAL call. -/
  | pal (op : PalOp)
  deriving DecidableEq

end AlphaMachine
