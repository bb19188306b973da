/-
  HotPath.Region.Merge

  Two arms that meet at their join. Registers on which the arms agree stay as
  they are; one that differs moves to a new slot, which both arms fill, unless
  it is pinned or tainted in one arm only.
-/
import HotPath.Region.Basic

namespace HotPath

namespace Region

/-! ## Shapes -/

/-- What is known about a register, whatever slot it is in. -/
inductive RegShape where
  | fixed (value : Value)
  | slot (tainted : Bool)
  deriving DecidableEq

/-- What is known where a walk stands. -/
structure Shape where
  cursor : Nat
  regs : List RegShape
  deriving DecidableEq

/-- The shape of what is known about a register. -/
def regShape : Binding → RegShape
  | .fixed k => .fixed k.value
  | .slot _ tainted => .slot tainted

/-- The shape of a region where its walk stands. -/
def shape (r : Region) : Shape := ⟨r.cursor, r.regs.map regShape⟩

/-- Whether two walks have met: they stand at one instruction, with equally
many registers. -/
def Shape.compatible (s t : Shape) : Bool :=
  s.cursor == t.cursor && s.regs.length == t.regs.length

/-! ## Merging -/

/-- Why a register cannot be merged. -/
inductive Conflict where
  | pinned
  | taint
  deriving DecidableEq

/-- The reason as text. -/
def Conflict.text : Conflict → String
  | .pinned => "pinned value differs"
  | .taint => "provenance differs"

/-- What becomes of a register. -/
inductive RegMerge where
  | keep (binding : Binding)
  /-- Move it to a new slot. -/
  | widen
  | clash (conflict : Conflict)
  deriving DecidableEq

/-- Whether two bindings are fixed to one value. -/
def sameConst (t e : Binding) : Bool :=
  match t, e with
  | .fixed a, .fixed b => a.value == b.value
  | _, _ => false

/-- Decides about a register from what the two arms know. -/
def mergeReg (t e : Binding) : RegMerge :=
  if t = e then .keep t
  else if sameConst t e then .keep (if t.isPinned then t else e)
  else if t.isPinned || e.isPinned then .clash .pinned
  else if t.isTainted ≠ e.isTainted then .clash .taint
  else .widen

/-- The first register that cannot be merged, from a position on. -/
def firstClash? (i : Nat) : List Binding → List Binding → Option (Reg × Conflict)
  | t :: ts, e :: es =>
    match mergeReg t e with
    | .clash c => some (i, c)
    | _ => firstClash? (i + 1) ts es
  | _, _ => none

/-- Fills a slot with a register. -/
def materialize (dst : Slot) : Binding → Op
  | .fixed k => .const dst k.value
  | .slot src _ => .copy dst src

/-- Merged registers, and the operations that fill their new slots. -/
structure Weave where
  regs : List Binding
  thenOps : List Op
  elseOps : List Op
  nextSlot : Slot

/-- Merges registers that do not clash; new slots are taken from `next` on. -/
def weave (next : Slot) : List Binding → List Binding → Except Fault Weave
  | t :: ts, e :: es =>
    match mergeReg t e with
    | .keep b => do
      let w ← weave next ts es
      return { w with regs := b :: w.regs }
    | _ => do
      let next' ← nextSlot? next
      let w ← weave next' ts es
      return ⟨.slot next t.isTainted :: w.regs, materialize next t :: w.thenOps,
        materialize next e :: w.elseOps, w.nextSlot⟩
  | _, _ => .ok ⟨[], [], [], next⟩

/-- Two arms at their join. -/
inductive ArmMerge where
  /-- They merged; each list of operations ends with those that fill new slots. -/
  | merged (thenOps elseOps : List Op) (region : Region)
  /-- A register cannot be merged. -/
  | clash (thenArm elseArm : Region) (reg : Reg) (conflict : Conflict)

/-- Merges two arms. Arms that did not stop at one instruction of one function
are an internal fault. -/
def mergeArms (thenArm elseArm : Region) : Except Fault ArmMerge :=
  if thenArm.shape.compatible elseArm.shape ∧ thenArm.func = elseArm.func then
    match firstClash? 0 thenArm.regs elseArm.regs with
    | some (reg, conflict) => .ok (.clash thenArm elseArm reg conflict)
    | none => do
      let w ← weave (max thenArm.nextSlot elseArm.nextSlot) thenArm.regs elseArm.regs
      return .merged (thenArm.ops.toList ++ w.thenOps) (elseArm.ops.toList ++ w.elseOps)
        { thenArm with
          regs := w.regs
          ops := #[]
          nextSlot := w.nextSlot
          steps := max thenArm.steps elseArm.steps }
  else
    .error (.mergeIncompatible (.armsApart thenArm.loc elseArm.loc thenArm.regs.length
      elseArm.regs.length))

end Region

end HotPath
