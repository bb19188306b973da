/-
  HotPath.Json.Decode

  Taking documents apart. A record may be written as an object, where unknown
  members are skipped and a known one may come once, or as an array of its
  fields in their order, of which the last ones may be missing.
-/
import HotPath.Json.Quoted
import HotPath.Json.Reader

namespace HotPath.Json

/-- The deepest nesting of containers that is read. -/
def maxDepth : Nat := 127

/-! ## Scalars -/

/-- The text of a string. -/
def text? : Json → Option String
  | .str raw => Quoted.decode? raw
  | _ => none

/-- The integer that a number denotes. -/
def int? : Json → Option Int
  | .num lexeme => Number.int? lexeme
  | _ => none

/-- A natural number up to a bound. -/
def nat? (max : Nat) (j : Json) : Option Nat :=
  j.int?.bind (fun n => if 0 ≤ n ∧ n ≤ max then some n.toNat else none)

/-- A truth value. -/
def bool? : Json → Option Bool
  | .bool b => some b
  | _ => none

/-- An array of parts that each decode. -/
def list? {α : Type} (part : Json → Option α) : Json → Option (List α)
  | .arr items => items.mapM part
  | _ => none

/-! ## Records -/

/-- The members of an object with their keys read. -/
def keyed? (members : List (String × Json)) : Option (List (String × Json)) :=
  members.mapM (fun m => (Quoted.decode? m.1).map (fun k => (k, m.2)))

/-- The values that members give to a name. -/
def valuesOf (members : List (String × Json)) (name : String) : List Json :=
  (members.filter (fun m => m.1 == name)).map Prod.snd

/-- A field of a record: absent, or given once. -/
def once? : List Json → Option (Option Json)
  | [] => some none
  | [j] => some (some j)
  | _ => none

/-- The fields with the given names among the members of an object. -/
def namedFields? (names : List String) (members : List (String × Json)) :
    Option (List (Option Json)) :=
  names.mapM (fun name => once? (valuesOf members name))

/-- The fields of a record that is written as an array. -/
def placedFields? (count : Nat) (items : List Json) : Option (List (Option Json)) :=
  if items.length ≤ count then
    some (items.map some ++ List.replicate (count - items.length) none)
  else none

/-- The fields of a record with the given names; absent ones are `none`. -/
def fields? (names : List String) : Json → Option (List (Option Json))
  | .obj members => (keyed? members).bind (namedFields? names)
  | .arr items => placedFields? names.length items
  | _ => none

/-- A field that has to be there. -/
def required {α : Type} (part : Json → Option α) (field : Option Json) : Option α :=
  field.bind part

/-- A field with a default. -/
def optional {α : Type} (part : Json → Option α) (default : α) : Option Json → Option α
  | none => some default
  | some j => part j

/-! ## Documents that are held before they are decoded -/

mutual

/-- Whether a document can be held: it nests at most `depth` containers, its
strings have a meaning and its numbers are finite. -/
def holds : (depth : Nat) → Json → Bool
  | _, .null => true
  | _, .bool _ => true
  | _, .num lexeme => Number.isFinite lexeme
  | _, .str raw => (Quoted.decode? raw).isSome
  | 0, .arr _ => false
  | 0, .obj _ => false
  | d + 1, .arr items => holdsItems d items
  | d + 1, .obj members => holdsMembers d members

/-- Whether every item of an array can be held. -/
def holdsItems (depth : Nat) : List Json → Bool
  | [] => true
  | j :: js => holds depth j && holdsItems depth js

/-- Whether every member of an object can be held. -/
def holdsMembers (depth : Nat) : List (String × Json) → Bool
  | [] => true
  | (k, v) :: ms => (Quoted.decode? k).isSome && holds depth v && holdsMembers depth ms

end

/-! ## Building -/

/-- A string with a given text. -/
def ofText (s : String) : Json := .str (Quoted.encode s)

/-- A number. -/
def ofInt (n : Int) : Json := .num (Number.ofInt n)

/-- A natural number. -/
def ofNat (n : Nat) : Json := .num (Number.ofNat n)

/-- A record as an object. -/
def record (fields : List (String × Json)) : Json :=
  .obj (fields.map (fun f => (Quoted.encode f.1, f.2)))

end HotPath.Json
