import AlphaMachine.Text.Hex
import AlphaMachine.Text.Unprintable

/-!
# Quoted text

Diagnostics show text between double quotes.  The quote itself, the backslash and the usual control
characters have two-character escapes; other unprintable characters are written by code point.
-/

namespace AlphaMachine

namespace Text

/-- The written form of a character between quotes. -/
def escape (c : Char) : String :=
  match c with
  | '"' => "\\\""
  | '\\' => "\\\\"
  | '\t' => "\\t"
  | '\r' => "\\r"
  | '\n' => "\\n"
  | '\x00' => "\\0"
  | c => if isUnprintable c then "\\u\x7b" ++ hexDigits c.toNat ++ "\x7d" else c.toString

/-- Text between double quotes. -/
def quote (text : String) : String := "\"" ++ String.join (text.toList.map escape) ++ "\""

end Text

end AlphaMachine
