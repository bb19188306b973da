/-
  HotPath.Value.Operator

  The nine binary operators, the faults a computation on values can raise, and
  the evaluation of operators and tuple fields.
-/
import HotPath.Value.Basic

namespace HotPath

/-- A binary operator. -/
inductive Operator where
  | add
  | sub
  | mul
  | div
  | rem
  | lt
  | le
  | eq
  | ne
  deriving DecidableEq

/-- A fault raised by the running program itself. -/
inductive RuntimeFault where
  /-- An arithmetic or ordering operator met a value that is no integer. -/
  | operands (op : Operator) (lhs rhs : Kind)
  /-- A field was read from a value that is no tuple. -/
  | notTuple (index : UInt64) (kind : Kind)
  /-- A field was read past the end of a tuple of the given size. -/
  | fieldRange (index : UInt64) (size : Nat)
  | divisionByZero
  /-- Calls nested deeper than the limit. -/
  | callDepth (limit : Nat)
  deriving DecidableEq

namespace Operator

/-- All operators, in the order in which they are declared. -/
def all : List Operator :=
  [.add, .sub, .mul, .div, .rem, .lt, .le, .eq, .ne]

/-- The operator as it is written between its operands. -/
def symbol : Operator → String
  | .add => "+"
  | .sub => "-"
  | .mul => "*"
  | .div => "/"
  | .rem => "%"
  | .lt => "<"
  | .le => "<="
  | .eq => "=="
  | .ne => "!="

/-- The operator's name in program files. -/
def name : Operator → String
  | .add => "add"
  | .sub => "sub"
  | .mul => "mul"
  | .div => "div"
  | .rem => "rem"
  | .lt => "lt"
  | .le => "le"
  | .eq => "eq"
  | .ne => "ne"

/-- The operator with a given name. -/
def ofName? (s : String) : Option Operator :=
  all.find? (fun op => op.name == s)

/-- An operator on two integers. Arithmetic wraps at 64 bits, division rounds
toward zero, and comparisons answer one or zero. -/
def evalInt (op : Operator) (a b : Int64) : Except RuntimeFault Value :=
  match op with
  | .add => .ok (.int (a + b))
  | .sub => .ok (.int (a - b))
  | .mul => .ok (.int (a * b))
  | .div => if b = 0 then .error .divisionByZero else .ok (.int (a / b))
  | .rem => if b = 0 then .error .divisionByZero else .ok (.int (a % b))
  | .lt => .ok (Value.ofBool (decide (a < b)))
  | .le => .ok (Value.ofBool (decide (a ≤ b)))
  | .eq => .ok (Value.ofBool (decide (a = b)))
  | .ne => .ok (Value.ofBool (decide (a ≠ b)))

/-- An operator on two values. Equality compares any two values by structure;
every other operator wants integers. -/
def eval (op : Operator) (lhs rhs : Value) : Except RuntimeFault Value :=
  match op with
  | .eq => .ok (Value.ofBool (decide (lhs = rhs)))
  | .ne => .ok (Value.ofBool (decide (lhs ≠ rhs)))
  | op =>
    match lhs, rhs with
    | .int a, .int b => op.evalInt a b
    | lhs, rhs => .error (.operands op lhs.kind rhs.kind)

end Operator

/-- The field of a tuple at an index. -/
def Value.field (v : Value) (index : UInt64) : Except RuntimeFault Value :=
  match v with
  | .tuple fields =>
    match fields[index.toNat]? with
    | some f => .ok f
    | none => .error (.fieldRange index fields.length)
  | v => .error (.notTuple index v.kind)

namespace RuntimeFault

/-- The kind of fault, as messages open with it. -/
def kindName : RuntimeFault → String
  | .operands .. => "TypeError"
  | .notTuple .. => "TypeError"
  | .fieldRange .. => "IndexError"
  | .divisionByZero => "DivisionByZero"
  | .callDepth _ => "StackOverflow"

/-- What went wrong, without the kind. -/
def detail : RuntimeFault → String
  | .operands op l r =>
    s!"unsupported operand types for {op.symbol}: {l.name} and {r.name}"
  | .notTuple index kind => s!"cannot read field {index.toNat} of {kind.name}"
  | .fieldRange index size => s!"field {index.toNat} out of range for tuple of {size}"
  | .divisionByZero => "integer division by zero"
  | .callDepth limit => s!"call depth exceeded {limit}"

end RuntimeFault

end HotPath
