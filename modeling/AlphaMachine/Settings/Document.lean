import AlphaMachine.Settings.Field

/-!
# Settings files

A settings file is a TOML document.  Every key is a field of the settings and every value a truth
value or an integer, so a document is a sequence of lines, each with at most one `key = value` and
at most one comment.  A document with anything else is rejected.

* Keys are bare or quoted; basic quotes have escapes, literal quotes have none.
* Integers are decimal with an optional sign, or hexadecimal, octal or binary; single underscores
  may stand between digits, and decimal integers have no leading zeros.
* Lines end with a line feed, which a carriage return may precede.
-/

namespace AlphaMachine

namespace Settings

namespace Document

/-- A value of a document. -/
inductive Value where
  /-- A truth value. -/
  | bool (b : Bool)
  /-- An integer. -/
  | int (n : Int)
  deriving DecidableEq

/-! ### Characters -/

/-- Blanks within a line. -/
def isBlank (c : Char) : Bool := c = ' ' || c = '\t'

/-- Characters that comments and quoted keys must not hold. -/
def isControl (c : Char) : Bool := (c.toNat < 0x20 && c ≠ '\t') || c.toNat = 0x7F

/-- Characters of bare keys. -/
def isBare (c : Char) : Bool := c.isAlphanum || c = '_' || c = '-'

/-- Drop leading blanks. -/
def skipBlanks (cs : List Char) : List Char := cs.dropWhile isBlank

/-! ### Integers -/

/-- Digits with single underscores between them, `afterDigit` saying whether a digit stands in
front. -/
def digits? (base : Nat) (afterDigit : Bool) (acc : Nat) : List Char → Option Nat
  | [] => if afterDigit then some acc else none
  | '_' :: rest => if afterDigit then digits? base false acc rest else none
  | c :: rest => do digits? base true (acc * base + (← Number.digit? base c)) rest

/-- A decimal integer without sign. -/
def decimal? : List Char → Option Nat
  | ['0'] => some 0
  | '0' :: _ => none
  | cs => digits? 10 false 0 cs

/-- An integer. -/
def integer? : List Char → Option Int
  | '+' :: cs => (decimal? cs).map Int.ofNat
  | '-' :: cs => (decimal? cs).map fun n => -Int.ofNat n
  | '0' :: 'x' :: cs => (digits? 16 false 0 cs).map Int.ofNat
  | '0' :: 'o' :: cs => (digits? 8 false 0 cs).map Int.ofNat
  | '0' :: 'b' :: cs => (digits? 2 false 0 cs).map Int.ofNat
  | cs => (decimal? cs).map Int.ofNat

/-- A value. -/
def value? (cs : List Char) : Option Value :=
  if cs = "true".toList then some (.bool true)
  else if cs = "false".toList then some (.bool false)
  else (integer? cs).map .int

/-! ### Keys -/

/-- The character with a code point. -/
def scalar? (n : Nat) : Option Char := if n.isValidChar then some (Char.ofNat n) else none

/-- The character whose code point is spelled by hexadecimal digits. -/
def codePoint? (spelled : List Char) : Option Char := do
  let digits ← spelled.mapM (Number.digit? 16)
  scalar? (digits.foldl (fun n d => 16 * n + d) 0)

/-- The character of an escape of one character. -/
def escape? : Char → Option Char
  | 'b' => some '\x08'
  | 't' => some '\t'
  | 'n' => some '\n'
  | 'f' => some '\x0c'
  | 'r' => some '\r'
  | 'e' => some '\x1b'
  | '"' => some '"'
  | '\\' => some '\\'
  | _ => none

/-- Put a character in front of a quoted text. -/
def prepend (c : Char) (quoted : List Char × List Char) : List Char × List Char :=
  (c :: quoted.1, quoted.2)

/-- The text up to the closing basic quote, and what follows the quote. -/
def basic? : List Char → Option (List Char × List Char)
  | [] => none
  | '"' :: rest => some ([], rest)
  | '\\' :: 'x' :: a :: b :: rest => do return prepend (← codePoint? [a, b]) (← basic? rest)
  | '\\' :: 'u' :: a :: b :: c :: d :: rest => do
    return prepend (← codePoint? [a, b, c, d]) (← basic? rest)
  | '\\' :: 'U' :: a :: b :: c :: d :: e :: f :: g :: h :: rest => do
    return prepend (← codePoint? [a, b, c, d, e, f, g, h]) (← basic? rest)
  | '\\' :: e :: rest => do return prepend (← escape? e) (← basic? rest)
  | c :: rest => if c = '\\' || isControl c then none else (basic? rest).map (prepend c)

/-- The text up to the closing literal quote, and what follows the quote. -/
def literal? : List Char → Option (List Char × List Char)
  | [] => none
  | '\'' :: rest => some ([], rest)
  | c :: rest => if isControl c then none else (literal? rest).map (prepend c)

/-- The key at the front, and the rest. -/
def key? : List Char → Option (String × List Char)
  | '"' :: rest =>
    (basic? rest).map fun (text, rest) => (String.ofList text, rest)
  | '\'' :: rest => (literal? rest).map fun (text, rest) => (String.ofList text, rest)
  | cs => some (String.ofList (cs.takeWhile isBare), cs.dropWhile isBare)

/-! ### Lines -/

/-- Whether blanks and at most one comment are all there is. -/
def isEnd (cs : List Char) : Bool :=
  match skipBlanks cs with
  | [] => true
  | '#' :: comment => !comment.any isControl
  | _ => false

/-- Whether a character ends a value. -/
def endsValue (c : Char) : Bool := isBlank c || c = '#'

/-- The `key = value` of a line. -/
def binding? (cs : List Char) : Option (String × Value) := do
  let (key, rest) ← key? (skipBlanks cs)
  match skipBlanks rest with
  | '=' :: rest =>
    let rest := skipBlanks rest
    let value ← value? (rest.takeWhile fun c => !endsValue c)
    if isEnd (rest.dropWhile fun c => !endsValue c) then some (key, value) else none
  | _ => none

/-- The lines of a text, without their ends. -/
def lines : List Char → List (List Char)
  | [] => [[]]
  | '\r' :: '\n' :: rest | '\n' :: rest => [] :: lines rest
  | c :: rest =>
    match lines rest with
    | [] => [[c]]
    | line :: more => (c :: line) :: more

/-- The bindings of a document, in order. -/
def bindings? (text : String) : Option (List (String × Value)) :=
  let cs := match text.toList with
    | '\uFEFF' :: rest => rest
    | cs => cs
  ((lines cs).filter fun line => !isEnd line).mapM binding?

/-! ### Settings -/

/-- An integer as a word of `bits` bits. -/
def natural? (bits : Nat) (n : Int) : Option Nat :=
  if 0 ≤ n ∧ n < (1 <<< bits : Nat) then some n.toNat else none

/-- Give a field a value of its type. -/
def assign? (s : Settings) (field : Field) (value : Value) : Option Settings :=
  match field, value with
  | .jit, .bool b => some { s with jit := b }
  | .hotThreshold, .int n =>
    (natural? 32 n).map fun n => { s with hotThreshold := UInt32.ofNat n }
  | .maxBlockLength, .int n =>
    (natural? 64 n).map fun n => { s with maxBlockLength := UInt64.ofNat n }
  | .backgroundCompile, .bool b => some { s with backgroundCompile := b }
  | .trapVectorBase, .int n =>
    (natural? 64 n).map fun n => { s with trapVectorBase := UInt64.ofNat n }
  | .stopOnTrap, .bool b => some { s with stopOnTrap := b }
  | .maxSteps, .int n =>
    (natural? 64 n).map fun n => { s with maxSteps := some (UInt64.ofNat n) }
  | _, _ => none

/-- Give the fields with these keys their values, each field at most once. -/
def assignAll? : Settings → List (String × Value) → Option Settings
  | s, [] => some s
  | s, (key, value) :: rest => do
    if rest.any (·.1 = key) then none
    else assignAll? (← assign? s (← Field.ofKey? key) value) rest

end Document

/-- Why settings cannot be had from a document. -/
inductive DocumentError where
  /-- The document is not one of settings. -/
  | malformed
  /-- A count is zero. -/
  | zero (count : Count)
  deriving DecidableEq

/-- The settings of a document; fields that it does not mention have their defaults. -/
def ofDocument (text : String) : Except DocumentError Settings :=
  match (Document.bindings? text).bind (Document.assignAll? {}) with
  | none => .error .malformed
  | some s =>
    match s.zeroCount? with
    | some count => .error (.zero count)
    | none => .ok s

end Settings

end AlphaMachine
