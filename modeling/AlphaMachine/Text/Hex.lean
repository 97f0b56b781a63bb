/-!
# Hexadecimal text

Numbers are written in lower-case hexadecimal, behind `0x` where a diagnostic shows an address
or an instruction word.
-/

namespace AlphaMachine

namespace Text

/-- `text` behind as many fill characters as bring it to `width`. -/
def padLeft (width : Nat) (fill : Char) (text : String) : String :=
  String.ofList (List.replicate (width - text.length) fill) ++ text

/-- `text` followed by as many blanks as bring it to `width`. -/
def padRight (width : Nat) (text : String) : String :=
  text ++ String.ofList (List.replicate (width - text.length) ' ')

/-- Lower-case hexadecimal digits without leading zeros. -/
def hexDigits (n : Nat) : String := String.ofList (Nat.toDigits 16 n)

/-- `0x` and the digits without leading zeros. -/
def hex (n : Nat) : String := "0x" ++ hexDigits n

/-- `0x` and at least `digits` digits. -/
def hexPadded (digits n : Nat) : String := "0x" ++ padLeft digits '0' (hexDigits n)

/-- The two digits of a byte. -/
def hexByte (b : UInt8) : String := padLeft 2 '0' (hexDigits b.toNat)

/-- A byte string as two digits per byte. -/
def hexBytes (bytes : List UInt8) : String := String.join (bytes.map hexByte)

/-- A signed number with its sign always written. -/
def signed (n : Int) : String := if 0 ≤ n then "+" ++ toString n else toString n

end Text

end AlphaMachine
