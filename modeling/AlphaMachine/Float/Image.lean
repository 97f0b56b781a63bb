/-!
# Register images of floating numbers

Floating registers hold 64-bit images in T format, the IEEE double format.  S-format numbers and
longwords have a 32-bit form in memory; loading one into a register spreads its bits over the T
image and storing it picks them again.

* `FloatImage.ofSingle` and `FloatImage.toSingle` convert S-format numbers;
* `FloatImage.ofLong` and `FloatImage.toSingle` convert longwords.
-/

namespace AlphaMachine

/-- The low 32 bits of a word, sign-extended. -/
def signExtendLong (value : UInt64) : UInt64 := value.toUInt32.toInt32.toInt64.toUInt64

namespace FloatImage

/-- The sign bit. -/
def sign : UInt64 := 0x8000000000000000

/-- The sign and exponent bits. -/
def signExponent : UInt64 := 0xFFF0000000000000

/-- The T exponent of an S exponent: the extreme values stay extreme, the others are rebiased. -/
def widenExponent (e : UInt64) : UInt64 :=
  if e = 0 then 0 else if e = 0xFF then 0x7FF else e + 0x380

/-- The T image of an S-format number. -/
def ofSingle (s : UInt32) : UInt64 :=
  let s := s.toUInt64
  (s >>> 31) <<< 63 ||| widenExponent (s >>> 23 &&& 0xFF) <<< 52 ||| (s &&& 0x7FFFFF) <<< 29

/-- The upper two bits of a 32-bit form. -/
def upperMask : UInt64 := 0xC0000000

/-- The lower thirty bits of a 32-bit form. -/
def lowerMask : UInt64 := 0x3FFFFFFF

/-- The 32-bit form of a T image: bits 63 and 62, then bits 58 to 29. -/
def toSingle (t : UInt64) : UInt32 :=
  (t >>> 32 &&& upperMask ||| t >>> 29 &&& lowerMask).toUInt32

/-- The register image of the low longword of `q`. -/
def ofLong (q : UInt64) : UInt64 := (q &&& upperMask) <<< 32 ||| (q &&& lowerMask) <<< 29

/-- Whether the image is a zero of either sign. -/
def isZero (image : UInt64) : Bool := image <<< 1 == 0

/-- Whether the sign bit is set. -/
def isNegative (image : UInt64) : Bool := image >>> 63 == 1

/-! ### Conversion to integers

The value of a finite image is `significand * 2 ^ (exponent - 1075)`. -/

/-- The exponent field. -/
def exponent (image : UInt64) : Nat := (image.toNat >>> 52) % 0x800

/-- The fraction field. -/
def fraction (image : UInt64) : Nat := image.toNat % (1 <<< 52)

/-- Whether the image is not a number. -/
def isNaN (image : UInt64) : Bool := exponent image = 0x7FF && fraction image != 0

/-- The integer nearest to `n / d`, a tie going to the even neighbour. -/
def roundTiesEven (n d : Nat) : Nat :=
  let q := n / d
  let twice := 2 * (n % d)
  if twice < d ∨ twice = d ∧ q % 2 = 0 then q else q + 1

/-- The magnitude of an image as an integer, chopped or rounded to nearest even. -/
def magnitude (image : UInt64) (chopped : Bool) : Nat :=
  let e := exponent image
  let m := if e = 0 then fraction image else fraction image + (1 <<< 52)
  let e := max e 1
  if 1075 ≤ e then m <<< (e - 1075)
  else
    let d := 1 <<< (1075 - e)
    if chopped then m / d else roundTiesEven m d

/-- The quadword nearest to an image, saturating at the ends of the range; not-a-number gives
zero. -/
def toQuad (image : UInt64) (chopped : Bool) : UInt64 :=
  if isNaN image then 0
  else
    let n : Int := magnitude image chopped
    UInt64.ofInt (if isNegative image then max (-n) Int64.minValue.toInt
      else min n Int64.maxValue.toInt)

end FloatImage

end AlphaMachine
