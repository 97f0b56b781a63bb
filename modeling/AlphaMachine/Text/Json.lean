/-!
# JSON documents

Values of reports, and their text with one element or member on a line, two blanks deeper than the
value that holds it.
-/

namespace AlphaMachine

namespace Text

/-- A JSON value; texts hold no character that needs an escape. -/
inductive Json where
  | null
  | number (n : Nat)
  | text (s : String)
  | array (elements : List Json)
  | object (members : List (String × Json))

namespace Json

/-- A plain text between quotes. -/
def quoted (s : String) : String := "\"" ++ s ++ "\""

/-- Items between brackets, each on a line of its own, at a depth. -/
def enclose (opening closing : String) (depth : Nat) (items : List String) : String :=
  let newLine (depth : Nat) : String := "\n" ++ String.ofList (List.replicate (2 * depth) ' ')
  match items with
  | [] => opening ++ closing
  | items =>
    opening ++ newLine (depth + 1) ++ String.intercalate ("," ++ newLine (depth + 1)) items ++
      newLine depth ++ closing

mutual

/-- The text of a value at a depth. -/
def renderAt (depth : Nat) : Json → String
  | .null => "null"
  | .number n => toString n
  | .text s => quoted s
  | .array elements => enclose "[" "]" depth (renderElements (depth + 1) elements)
  | .object members => enclose "\x7b" "\x7d" depth (renderMembers (depth + 1) members)

/-- The texts of elements at a depth. -/
def renderElements (depth : Nat) : List Json → List String
  | [] => []
  | v :: rest => renderAt depth v :: renderElements depth rest

/-- The texts of members at a depth. -/
def renderMembers (depth : Nat) : List (String × Json) → List String
  | [] => []
  | (name, v) :: rest => (quoted name ++ ": " ++ renderAt depth v) :: renderMembers depth rest

end

/-- The text of a value. -/
def render (v : Json) : String := v.renderAt 0

end Json

end Text

end AlphaMachine
