/-
  HotPath.Promotion

  What to do where a unit arrives at a promotion site with a value.
-/
import HotPath.Unit.Store

namespace HotPath

/-- How to go on from a promotion site. -/
inductive Decision where
  /-- Run an installed unit. -/
  | cached (unit : CodeUnit)
  /-- Specialize for the value. -/
  | specialize
  /-- Specialize for all values. -/
  | specializeGeneric
  /-- Interpret; the site is not hot. -/
  | fallback

/-- The unit, if there is one that was made for the frame. -/
def CodeUnit.fitting? (f : Frame) : Option CodeUnit → Option CodeUnit
  | some u => if u.accepts f then some u else none
  | none => none

/-- Decides how to go on from a site. The count is that of the value or, at a
generic site, that of the site. A hot value for which there is no room turns
the site generic. -/
def UnitStore.decide (s : UnitStore) (threshold : Nat) (site : Location) (value : Value)
    (count : Nat) (f : Frame) : Decision × UnitStore :=
  if s.isGeneric site then
    match CodeUnit.fitting? f (s.genericUnit site) with
    | some u => (.cached u, s)
    | none => (if threshold ≤ count then .specializeGeneric else .fallback, s)
  else
    match CodeUnit.fitting? f (s.lookupPromotion site value f.mask) with
    | some u => (.cached u, s)
    | none =>
      if count < threshold then (.fallback, s)
      else if s.hasRoom site value then (.specialize, s)
      else (.fallback, (s.makeGeneric site).2)

end HotPath
