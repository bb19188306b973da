/-
  HotPath.Binding

  What is known about a register while a region is specialized: either its
  value is *fixed*, or it lives in a slot at run time. A value is fixed only if
  its origin allows it, so a value that derives from input never is.
-/
import HotPath.Value.Basic

namespace HotPath

/-- Where a value came from. -/
inductive Origin where
  /-- A constant of the code. -/
  | literal
  /-- Computed from fixed values. -/
  | folded
  /-- A green of the merge point at the entry. -/
  | greenEntry
  /-- Any other register at the entry. -/
  | redEntry
  /-- A promoted value. -/
  | promoted
  /-- Input, or derived from input. -/
  | io
  /-- The result of a call. -/
  | call
  /-- Two arms that met with different values. -/
  | merge
  deriving DecidableEq

/-- A fixed value. A *pinned* one belongs to the identity of the unit, and is
never given up when arms meet. -/
structure Known where
  value : Value
  pinned : Bool
  deriving DecidableEq

namespace Origin

/-- Whether a value of this origin may be fixed. -/
def isFixed : Origin → Bool
  | .literal | .folded | .greenEntry | .promoted => true
  | .redEntry | .io | .call | .merge => false

/-- Whether a fixed value of this origin is pinned. -/
def isPinned : Origin → Bool
  | .greenEntry | .promoted => true
  | _ => false

/-- Fixes a value, if its origin allows it. -/
def fix? (origin : Origin) (value : Value) : Option Known :=
  if origin.isFixed then some ⟨value, origin.isPinned⟩ else none

end Origin

/-- A slot of a compiled unit. -/
abbrev Slot := Nat

/-- A slot as text. -/
def Slot.text (s : Slot) : String := s!"v{s}"

/-- An input of a compiled operation. -/
inductive Operand where
  | const (value : Value)
  | slot (slot : Slot)
  deriving DecidableEq

namespace Operand

/-- The slot that an operand reads, if it does. -/
def slot? : Operand → Option Slot
  | .slot s => some s
  | .const _ => none

/-- An operand as text. -/
def text : Operand → String
  | .const value => value.text
  | .slot s => Slot.text s

/-- Operands as text, with commas between them. -/
def listText (xs : List Operand) : String :=
  ", ".intercalate (xs.map text)

end Operand

/-- What is known about a register. -/
inductive Binding where
  | fixed (known : Known)
  | slot (slot : Slot) (tainted : Bool)
  deriving DecidableEq

namespace Binding

/-- A fixed value that is not pinned. -/
def literal (value : Value) : Binding := .fixed ⟨value, false⟩

/-- Whether the value is fixed. -/
def isFixed : Binding → Bool
  | .fixed _ => true
  | .slot .. => false

/-- The fixed value, if there is one. -/
def const? : Binding → Option Value
  | .fixed k => some k.value
  | .slot .. => none

/-- Whether the register is tainted; a fixed one never is. -/
def isTainted : Binding → Bool
  | .slot _ tainted => tainted
  | .fixed _ => false

/-- Whether the register is fixed and pinned. -/
def isPinned : Binding → Bool
  | .fixed k => k.pinned
  | .slot .. => false

/-- The operand that reads the register. -/
def operand : Binding → Operand
  | .fixed k => .const k.value
  | .slot s _ => .slot s

/-- The slot that holds the register, if there is one. -/
def slot? : Binding → Option Slot
  | .slot s _ => some s
  | .fixed _ => none

/-- What is known, as text: `=5`, pinned `=5!`, `v3`, tainted `v3~`. -/
def text : Binding → String
  | .fixed ⟨value, true⟩ => s!"={value.text}!"
  | .fixed ⟨value, false⟩ => s!"={value.text}"
  | .slot s true => s!"{Slot.text s}~"
  | .slot s false => Slot.text s

end Binding

end HotPath
