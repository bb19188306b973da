/-
  HotPath.Trace.Simplify

  Dropping operations that only fill a slot which nothing reads, and copies of
  a slot to itself. What is dropped may have been the last reader of another
  slot, so this is repeated until nothing more goes.
-/
import HotPath.Trace.Basic

namespace HotPath

/-- The slots that leaving reads. -/
def Leave.uses (l : Leave) : List Slot :=
  (match l.kind with
    | .returned value => value.slot?.toList
    | _ => []) ++ l.regs.filterMap Binding.slot?

mutual

/-- The slots that an operation reads; a copy of a slot to itself reads none. -/
def Op.uses : Op → List Slot
  | .const .. => []
  | .input _ => []
  | .copy dst src => if dst = src then [] else [src]
  | .binary _ _ lhs rhs => lhs.slot?.toList ++ rhs.slot?.toList
  | .print src => src.slot?.toList
  | .alloc _ fields => fields.filterMap Operand.slot?
  | .call _ _ args => args.filterMap Operand.slot?
  | .getField _ obj _ => obj.slot?.toList
  | .guard cond _ leave => cond.slot?.toList ++ leave.uses
  | .branch cond thenOps elseOps =>
    cond.slot?.toList ++ Op.usesAll thenOps ++ Op.usesAll elseOps
  | .exit leave => leave.uses

/-- The slots that operations read. -/
def Op.usesAll : List Op → List Slot
  | [] => []
  | op :: ops => op.uses ++ Op.usesAll ops

end

namespace Op

/-- Whether an operation is worth keeping when only the slots in `used` are
read. -/
def isKept (used : List Slot) : Op → Bool
  | .const dst _ => used.contains dst
  | .copy dst src => dst != src && used.contains dst
  | _ => true

mutual

/-- Drops useless operations inside of an operation. -/
def prune (used : List Slot) : Op → Op
  | .branch cond thenOps elseOps =>
    .branch cond (pruneAll used thenOps) (pruneAll used elseOps)
  | op => op

/-- Drops useless operations. -/
def pruneAll (used : List Slot) : List Op → List Op
  | [] => []
  | op :: ops =>
    if op.isKept used then op.prune used :: pruneAll used ops else pruneAll used ops

end

/-- Drops operations that are useless as the list stands. -/
def sweep (ops : List Op) : List Op := pruneAll (usesAll ops) ops

/-- Sweeps until nothing goes, at most `n` times. -/
def settle : Nat → List Op → List Op
  | 0, ops => ops
  | n + 1, ops =>
    let swept := sweep ops
    if countAll swept = countAll ops then swept else settle n swept

/-- Drops useless operations until none is left. Each sweep but the last drops
at least one, which bounds their number. -/
def simplify (ops : List Op) : List Op := settle (countAll ops + 1) ops

end Op

/-- The trace without useless operations. -/
def Trace.simplify (t : Trace) : Trace := { t with ops := Op.simplify t.ops }

end HotPath
