/-
  HotPath.Json.Basic

  JSON documents as trees of lexemes. Numbers and strings stay as they are
  written, because what a number or a string denotes matters only where a
  document is decoded: a field that nobody looks at may hold a string without
  meaning, or a number out of range.
-/

namespace HotPath

/-- A JSON document. -/
inductive Json where
  | null
  | bool (b : Bool)
  /-- A number, as written. -/
  | num (lexeme : String)
  /-- A string, as written between its quotes. -/
  | str (raw : String)
  | arr (items : List Json)
  /-- An object: keys as written between their quotes, in order. -/
  | obj (members : List (String × Json))

namespace Json

instance : Inhabited Json := ⟨.null⟩

/-! ## Writing -/

mutual

/-- A document without any blanks. -/
def compact : Json → String
  | .null => "null"
  | .bool true => "true"
  | .bool false => "false"
  | .num lexeme => lexeme
  | .str raw => "\"" ++ raw ++ "\""
  | .arr items => "[" ++ String.join ((compactItems items).intersperse ",") ++ "]"
  | .obj members => "\x7b" ++ String.join ((compactMembers members).intersperse ",") ++ "\x7d"

/-- The items of an array, each on its own. -/
def compactItems : List Json → List String
  | [] => []
  | j :: js => compact j :: compactItems js

/-- The members of an object, each on its own. -/
def compactMembers : List (String × Json) → List String
  | [] => []
  | (k, v) :: ms => ("\"" ++ k ++ "\":" ++ compact v) :: compactMembers ms

end

/-- The blanks that open a line at a nesting level. -/
def margin (level : Nat) : String := "".pushn ' ' (2 * level)

/-- Lines inside a pair of brackets. -/
def block (level : Nat) (opening closing : String) (lines : List String) : String :=
  opening ++ "\n" ++ String.join (lines.intersperse ",\n") ++ "\n" ++ margin level ++ closing

mutual

/-- A document with one item or member a line, indented by two blanks a level;
an empty array or object stays on its line. -/
def pretty (level : Nat) : Json → String
  | .null => "null"
  | .bool true => "true"
  | .bool false => "false"
  | .num lexeme => lexeme
  | .str raw => "\"" ++ raw ++ "\""
  | .arr [] => "[]"
  | .arr items => block level "[" "]" (prettyItems (level + 1) items)
  | .obj [] => "\x7b\x7d"
  | .obj members => block level "\x7b" "\x7d" (prettyMembers (level + 1) members)

/-- The items of an array, one a line. -/
def prettyItems (level : Nat) : List Json → List String
  | [] => []
  | j :: js => (margin level ++ pretty level j) :: prettyItems level js

/-- The members of an object, one a line. -/
def prettyMembers (level : Nat) : List (String × Json) → List String
  | [] => []
  | (k, v) :: ms =>
    (margin level ++ "\"" ++ k ++ "\": " ++ pretty level v) :: prettyMembers level ms

end

end Json

end HotPath
