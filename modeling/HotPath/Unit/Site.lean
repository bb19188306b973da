/-
  HotPath.Unit.Site

  The units of one promotion site. A site holds units for up to a limit of
  distinct values, one for each taint that a value came with; the first value
  too many makes it megamorphic for good, with at most one unit for all values.
-/
import HotPath.Unit.Basic

namespace HotPath

/-- A unit for one value, under one taint. -/
structure ValueUnit where
  value : Value
  taint : Nat
  unit : CodeUnit

namespace ValueUnit

/-- Whether the entry is for a value under a taint. -/
def isFor (e : ValueUnit) (value : Value) (taint : Nat) : Bool :=
  e.value == value && e.taint == taint

end ValueUnit

/-- The units of a promotion site. -/
inductive SiteUnits where
  /-- Nothing is installed. -/
  | uninitialized
  | monomorphic (entry : ValueUnit)
  | polymorphic (entries : List ValueUnit)
  /-- Too many values; the site stays generic. -/
  | megamorphic (unit : Option CodeUnit)

namespace SiteUnits

/-- The entries for single values. -/
def entries : SiteUnits → List ValueUnit
  | .uninitialized => []
  | .monomorphic e => [e]
  | .polymorphic es => es
  | .megamorphic _ => []

/-- The unit for a value under a taint. -/
def lookup (s : SiteUnits) (value : Value) (taint : Nat) : Option CodeUnit :=
  (s.entries.find? (fun e => e.isFor value taint)).map ValueUnit.unit

/-- The distinct values of entries. -/
def distinct : List ValueUnit → List Value
  | [] => []
  | e :: es => (distinct es).insert e.value

/-- The number of distinct values with a unit. -/
def valueCount (s : SiteUnits) : Nat := (distinct s.entries).length

/-- The number of units for single values. -/
def size (s : SiteUnits) : Nat := s.entries.length

/-- Whether there are fewer distinct values than a limit. There are never more
values than units, so values are counted only if there are many units. -/
def hasRoom (s : SiteUnits) (limit : Nat) : Bool :=
  decide (s.size < limit) || decide (s.valueCount < limit)

theorem length_distinct_le (es : List ValueUnit) : (distinct es).length ≤ es.length := by
  induction es with
  | nil => exact Nat.le_refl 0
  | cons e es ih =>
    have h : ((distinct es).insert e.value).length ≤ (distinct es).length + 1 := by
      by_cases hm : e.value ∈ distinct es
      · simp [List.insert_of_mem hm]
      · simp [List.insert_of_not_mem hm]
    exact Nat.le_trans h (Nat.succ_le_succ ih)

@[simp] theorem hasRoom_iff (s : SiteUnits) (limit : Nat) :
    s.hasRoom limit = true ↔ s.valueCount < limit := by
  have h : s.valueCount ≤ s.size := length_distinct_le s.entries
  unfold hasRoom
  simp only [Bool.or_eq_true, decide_eq_true_eq]
  omega

/-- Whether a value has a unit. -/
def contains (s : SiteUnits) (value : Value) : Bool :=
  s.entries.any (fun e => e.value == value)

/-- Whether the site is generic. -/
def isMegamorphic : SiteUnits → Bool
  | .megamorphic _ => true
  | _ => false

/-- The unit for all values. -/
def generic? : SiteUnits → Option CodeUnit
  | .megamorphic u => u
  | _ => none

/-- Replaces the unit of the first entry for the same value and taint. -/
def replace (new : ValueUnit) : List ValueUnit → List ValueUnit
  | [] => []
  | e :: es =>
    if e.isFor new.value new.taint then { e with unit := new.unit } :: es
    else e :: replace new es

/-- Installs a unit, and says whether there was room for it. The limit is on
distinct values, not on units. -/
def update (s : SiteUnits) (new : ValueUnit) (limit : Nat) : SiteUnits × Bool :=
  match s with
  | .uninitialized => (.monomorphic new, true)
  | .monomorphic old =>
    if old.isFor new.value new.taint then (.monomorphic { old with unit := new.unit }, true)
    else if old.value ≠ new.value ∧ limit < 2 then (.megamorphic none, false)
    else (.polymorphic [old, new], true)
  | .polymorphic es =>
    if es.any (fun e => e.isFor new.value new.taint) then (.polymorphic (replace new es), true)
    else if !s.contains new.value && !s.hasRoom limit then (.megamorphic none, false)
    else (.polymorphic (es ++ [new]), true)
  | .megamorphic u => (.megamorphic u, false)

end SiteUnits

end HotPath
