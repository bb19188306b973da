/-
  HotPath.Trace.Basic

  Traces: what is left of a region once everything that depends on fixed values
  only is computed. Operations work on slots, of which the first ones hold the
  registers at the entry, and branches nest.
-/
import HotPath.Binding
import HotPath.Exit

namespace HotPath

/-- Why a trace is left. -/
inductive LeaveKind where
  | mergePoint
  | promotion (reg : Reg)
  | fallback
  | returned (value : Operand)
  deriving DecidableEq

/-- How a trace is left: where control goes, and how to rebuild the frame. -/
structure Leave where
  loc : Location
  kind : LeaveKind
  regs : List Binding
  deriving DecidableEq

/-- One operation of a trace. -/
inductive Op where
  | const (dst : Slot) (value : Value)
  | copy (dst src : Slot)
  | binary (op : Operator) (dst : Slot) (lhs rhs : Operand)
  | input (dst : Slot)
  | print (src : Operand)
  | alloc (dst : Slot) (fields : List Operand)
  | getField (dst : Slot) (obj : Operand) (index : UInt64)
  | call (dst : Slot) (func : FuncId) (args : List Operand)
  /-- Leave unless the condition is as expected. -/
  | guard (cond : Operand) (expect : Bool) (leave : Leave)
  /-- Run one of two arms; an arm that does not leave goes on after the branch. -/
  | branch (cond : Operand) (thenOps elseOps : List Op)
  | exit (leave : Leave)

/-- A specialized region. -/
structure Trace where
  /-- The first address that the trace covers. -/
  entry : Location
  ops : List Op
  /-- The number of slots; those below `registers` hold the frame at the entry. -/
  slots : Nat
  registers : Nat

/-! ## Size -/

mutual

/-- The number of operations, nested ones included. -/
def Op.count : Op → Nat
  | .branch _ thenOps elseOps => 1 + Op.countAll thenOps + Op.countAll elseOps
  | _ => 1

/-- The number of operations in a list, nested ones included. -/
def Op.countAll : List Op → Nat
  | [] => 0
  | op :: ops => op.count + Op.countAll ops

end

namespace Op

/-- Whether the operation only leaves. -/
def isExit : Op → Bool
  | .exit _ => true
  | _ => false

end Op

namespace Trace

/-- The number of operations, nested ones included. -/
def opCount (t : Trace) : Nat := Op.countAll t.ops

/-- Whether the trace does nothing but leave. -/
def isEmpty (t : Trace) : Bool := t.ops.all Op.isExit

end Trace

/-! ## Text -/

/-- How a trace is left, as text. -/
def Leave.text (l : Leave) : String :=
  let head := match l.kind with
    | .mergePoint => s!"exit merge_point {l.loc.text}"
    | .promotion reg => s!"exit promote r{reg} at {l.loc.text}"
    | .fallback => s!"exit fallback {l.loc.text}"
    | .returned value => s!"exit return {value.text}"
  let regs := ", ".intercalate (l.regs.map Binding.text)
  s!"{head} [{regs}]"

/-- One line at a nesting level. -/
def Op.line (level : Nat) (s : String) : String :=
  "".pushn ' ' (2 * level) ++ s ++ "\n"

mutual

/-- The lines of an operation at a nesting level. -/
def Op.lines (level : Nat) : Op → List String
  | .const dst value => [Op.line level s!"{Slot.text dst} = const {value.text}"]
  | .copy dst src => [Op.line level s!"{Slot.text dst} = {Slot.text src}"]
  | .binary op dst lhs rhs =>
    [Op.line level s!"{Slot.text dst} = {lhs.text} {op.symbol} {rhs.text}"]
  | .input dst => [Op.line level s!"{Slot.text dst} = input"]
  | .print src => [Op.line level s!"print {src.text}"]
  | .alloc dst fields => [Op.line level s!"{Slot.text dst} = alloc ({Operand.listText fields})"]
  | .getField dst obj index =>
    [Op.line level s!"{Slot.text dst} = {obj.text}.{index.toNat}"]
  | .call dst func args =>
    [Op.line level s!"{Slot.text dst} = call f{func}({Operand.listText args})"]
  | .guard cond expect leave =>
    [Op.line level s!"guard {cond.text} is {expect} else {leave.text}"]
  | .branch cond thenOps elseOps =>
    Op.line level s!"if {cond.text}:" :: Op.linesAll (level + 1) thenOps ++
      Op.line level "else:" :: Op.linesAll (level + 1) elseOps
  | .exit leave => [Op.line level leave.text]

/-- The lines of operations at a nesting level. -/
def Op.linesAll (level : Nat) : List Op → List String
  | [] => []
  | op :: ops => op.lines level ++ Op.linesAll level ops

end

/-- The text of operations, one a line, indented by one level. -/
def Op.listing (ops : List Op) : String :=
  String.join (Op.linesAll 1 ops)

/-- The text of a trace. -/
def Trace.listing (t : Trace) : String :=
  s!"trace from {t.entry.text} ({t.slots} slots)\n" ++ Op.listing t.ops

end HotPath
