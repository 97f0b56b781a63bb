import AlphaMachine.Text.Quoted

/-!
# Numbers in settings

A number is decimal, or hexadecimal behind `0x` or `0X`; underscores may stand anywhere and do not
count.  It has to fit 64 bits.
-/

namespace AlphaMachine

/-- Why digits are not a number. -/
inductive DigitError where
  /-- There is no digit. -/
  | empty
  /-- Some character is not a digit. -/
  | invalidDigit
  /-- The number does not fit. -/
  | tooLarge
  deriving DecidableEq

/-- The diagnostic. -/
def DigitError.message : DigitError → String
  | .empty => "cannot parse integer from empty string"
  | .invalidDigit => "invalid digit found in string"
  | .tooLarge => "number too large to fit in target type"

/-- A text that is not a number. -/
structure InvalidNumber where
  /-- The text, without underscores. -/
  text : String
  /-- What is wrong with it. -/
  cause : DigitError
  deriving DecidableEq

/-- The diagnostic. -/
def InvalidNumber.message (e : InvalidNumber) : String :=
  "invalid number " ++ Text.quote e.text ++ ": " ++ e.cause.message

namespace Number

/-- The value of a digit in a base up to 16. -/
def digit? (base : Nat) (c : Char) : Option Nat :=
  let value :=
    if c.isDigit then c.toNat - '0'.toNat
    else if 'a' ≤ c ∧ c ≤ 'f' then c.toNat - 'a'.toNat + 10
    else if 'A' ≤ c ∧ c ≤ 'F' then c.toNat - 'A'.toNat + 10
    else base
  if value < base then some value else none

/-- Read digits from the left behind the number `acc`; the first fault from the left is
reported. -/
def readDigits (base limit : Nat) (acc : Nat) : List Char → Except DigitError Nat
  | [] => .ok acc
  | c :: rest =>
    match digit? base c with
    | none => .error .invalidDigit
    | some d =>
      if acc * base + d < limit then readDigits base limit (acc * base + d) rest
      else .error .tooLarge

/-- Read a number below `limit`, which may have a plus sign. -/
def readNatural (base limit : Nat) : List Char → Except DigitError Nat
  | [] => .error .empty
  | ['+'] => .error .invalidDigit
  | '+' :: digits => readDigits base limit 0 digits
  | digits => readDigits base limit 0 digits

/-- Read a 64-bit number without underscores. -/
def readWord (text : List Char) : Except DigitError UInt64 :=
  let value := match text with
    | '0' :: 'x' :: digits | '0' :: 'X' :: digits => readNatural 16 UInt64.size digits
    | digits => readNatural 10 UInt64.size digits
  value.map UInt64.ofNat

/-- Read a 64-bit number. -/
def read (text : String) : Except InvalidNumber UInt64 :=
  let plain := text.toList.filter (· ≠ '_')
  (readWord plain).mapError (⟨String.ofList plain, ·⟩)

/-- Read a decimal 64-bit number, without any of the liberties of `read`. -/
def readPlain (text : String) : Option UInt64 :=
  (readNatural 10 UInt64.size text.toList).toOption.map UInt64.ofNat

/-- Read a decimal 32-bit number, which may be a negative zero. -/
def readPlain32 (text : String) : Option UInt32 :=
  match text.toList with
  | '-' :: c :: digits => ((readDigits 10 1 0 (c :: digits)).toOption).map UInt32.ofNat
  | digits => ((readNatural 10 UInt32.size digits).toOption).map UInt32.ofNat

end Number

end AlphaMachine
