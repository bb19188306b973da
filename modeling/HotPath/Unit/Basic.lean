/-
  HotPath.Unit.Basic

  Compiled units, and what identifies the place that a unit was made for.
-/
import HotPath.Digest
import HotPath.Trace.Simplify
import HotPath.Trace.Run

namespace HotPath

/-- An instance of a merge point: its address, the values of its greens and the
taint of the whole frame. A tainted green is never fixed and counts as nil. -/
structure MergeKey where
  loc : Location
  greens : List Value
  taint : Nat
  deriving DecidableEq

namespace MergeKey

/-- The value that a register gives to a key. -/
def green (f : Frame) (r : Reg) : Value :=
  if f.isTainted r then .nil else f.get r

/-- The instance that a frame belongs to. -/
def ofFrame (loc : Location) (greens : List Reg) (f : Frame) : MergeKey :=
  ⟨loc, greens.map (green f), f.mask⟩

instance : Digest MergeKey where
  digest k := Digest.mix (Digest.mix (digest k.loc) k.taint) (Digest.mixAll digest k.greens)

/-- A key as text; the taint is not shown. -/
def text (k : MergeKey) : String :=
  let greens := ", ".intercalate (k.greens.map Value.text)
  s!"{k.loc.text} [{greens}]"

end MergeKey

/-- The place that a unit is entered from. -/
inductive UnitEntry where
  | mergePoint (key : MergeKey)
  | promotion (site : Location) (value : Value)
  | generic (site : Location)
  deriving DecidableEq

namespace UnitEntry

/-- The address of the merge point or promotion site. -/
def loc : UnitEntry → Location
  | .mergePoint k => k.loc
  | .promotion site _ => site
  | .generic site => site

instance : Digest UnitEntry where
  digest
    | .mergePoint k => digest k
    | .promotion site value => Digest.mix (digest site) (digest value)
    | .generic site => digest site

/-- The place as text. -/
def text : UnitEntry → String
  | .mergePoint k => s!"merge point {k.text}"
  | .promotion site value => s!"promotion {site.text} = {value.text}"
  | .generic site => s!"generic promotion {site.text}"

end UnitEntry

/-- A compiled unit. -/
structure CodeUnit where
  id : Nat
  entry : UnitEntry
  trace : Trace
  /-- The number of operations before any were dropped as useless. -/
  opCount : Nat
  /-- The taint of the frames that the unit was made for. -/
  entryTaint : Nat

namespace CodeUnit

/-- Whether the unit was made for frames of this taint. -/
def accepts (u : CodeUnit) (f : Frame) : Bool := f.mask == u.entryTaint

/-- Runs the unit. -/
def run (u : CodeUnit) (m : Machine) (fuel : Nat) (f : Frame) (io : Console) :
    Outcome Console Exit :=
  u.trace.run m fuel f io

/-- The unit as text. -/
def listing (u : CodeUnit) : String := u.trace.listing

end CodeUnit

end HotPath
