/-
  HotPath.Codec.Value

  Values in JSON: nil is `null`, integers are numbers and tuples are arrays.
-/
import HotPath.Fault
import HotPath.Json.Decode

namespace HotPath.Value

/-- The value with an integer, if the integer fits a signed word. -/
def ofInt? (n : Int) : Option Value :=
  if -(Word.half : Int) ≤ n ∧ n < (Word.half : Int) then some (.int (Int64.ofInt n)) else none

mutual

/-- The value that a document spells. -/
def ofJson? : Json → Option Value
  | .null => some .nil
  | .num lexeme => (Json.Number.int? lexeme).bind ofInt?
  | .arr items => (ofJsons? items).map .tuple
  | _ => none

/-- The values that documents spell. -/
def ofJsons? : List Json → Option (List Value)
  | [] => some []
  | j :: js =>
    match ofJson? j, ofJsons? js with
    | some v, some vs => some (v :: vs)
    | _, _ => none

end

mutual

/-- A value as a document. -/
def toJson : Value → Json
  | .nil => .null
  | .int n => Json.ofInt n.toInt
  | .tuple fields => .arr (toJsons fields)

/-- Values as documents. -/
def toJsons : List Value → List Json
  | [] => []
  | v :: vs => toJson v :: toJsons vs

end

/-- Reads the text of one value. -/
def ofText (s : String) : Except Fault Value :=
  match Json.parse? s with
  | none => .error .json
  | some j =>
    match ofJson? j with
    | some v => if j.holds Json.maxDepth then .ok v else .error .json
    | none => .error .json

/-- A value as JSON text. -/
def toText (v : Value) : String := v.toJson.compact

end HotPath.Value
