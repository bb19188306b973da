/-
  HotPath.Value.Basic

  Run-time values: nil, 64-bit integers and immutable tuples, with their
  decidable equality, truth, kind and text.
-/

namespace HotPath

/-- A value held in a register. -/
inductive Value where
  | nil
  | int (n : Int64)
  | tuple (fields : List Value)

/-- The three kinds of value, as faults name them. -/
inductive Kind where
  | nil
  | int
  | tuple
  deriving DecidableEq

/-- The word for a kind. -/
def Kind.name : Kind → String
  | .nil => "nil"
  | .int => "int"
  | .tuple => "tuple"

namespace Value

instance : Inhabited Value := ⟨.nil⟩

/-! ## Equality

Values nest in lists, so equality is decided by two functions that call each
other: one for values and one for their fields. A program can build a tuple
whose tree is exponentially larger than its storage, by using one value for
several fields. Two tuples that share their fields are therefore equal at once,
and only storage that differs is compared field by field. The answer is that of
the comparison in either case. -/

mutual

/-- Decides equality of two values. -/
def decEq : (a b : Value) → Decidable (a = b)
  | .nil, .nil => isTrue rfl
  | .int m, .int n =>
    if h : m = n then isTrue (h ▸ rfl) else isFalse (fun e => h (Value.int.inj e))
  | .tuple xs, .tuple ys =>
    match withPtrEqDecEq xs ys (fun _ => decEqList xs ys) with
    | isTrue h => isTrue (h ▸ rfl)
    | isFalse h => isFalse (fun e => h (Value.tuple.inj e))
  | .nil, .int _ => isFalse nofun
  | .nil, .tuple _ => isFalse nofun
  | .int _, .nil => isFalse nofun
  | .int _, .tuple _ => isFalse nofun
  | .tuple _, .nil => isFalse nofun
  | .tuple _, .int _ => isFalse nofun

/-- Decides equality of two lists of fields. -/
def decEqList : (xs ys : List Value) → Decidable (xs = ys)
  | [], [] => isTrue rfl
  | [], _ :: _ => isFalse nofun
  | _ :: _, [] => isFalse nofun
  | x :: xs, y :: ys =>
    match decEq x y with
    | isFalse h => isFalse (fun e => h (List.cons.inj e).1)
    | isTrue h =>
      match decEqList xs ys with
      | isTrue t => isTrue (h ▸ t ▸ rfl)
      | isFalse t => isFalse (fun e => t (List.cons.inj e).2)

end

instance : DecidableEq Value := decEq

/-! ## Views -/

/-- A comparison's answer as a value: one or zero. -/
def ofBool (b : Bool) : Value :=
  .int (if b then 1 else 0)

/-- Branches take nil and zero for false and everything else for true. -/
def truthy : Value → Bool
  | .nil => false
  | .int n => n != 0
  | .tuple _ => true

/-- The kind of a value. -/
def kind : Value → Kind
  | .nil => .nil
  | .int _ => .int
  | .tuple _ => .tuple

/-- The integer a value holds, if it is one. -/
def int? : Value → Option Int64
  | .int n => some n
  | _ => none

@[simp] theorem truthy_ofBool (b : Bool) : (ofBool b).truthy = b := by
  cases b <;> rfl

/-! ## Text -/

mutual

/-- A value as text: `nil`, a decimal integer, or fields in parentheses. -/
def text : Value → String
  | .nil => "nil"
  | .int n => toString n.toInt
  | .tuple fields => "(" ++ ", ".intercalate (texts fields) ++ ")"

/-- The texts of a list of values. -/
def texts : List Value → List String
  | [] => []
  | v :: vs => text v :: texts vs

end

end Value

end HotPath
