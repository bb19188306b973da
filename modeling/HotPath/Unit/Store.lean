/-
  HotPath.Unit.Store

  Where units are installed. A store can be shared between engines; it is all
  that they share. Installing replaces what was there.

  The store also remembers which values a promotion site has shown, up to one
  more than its threshold; the value that exceeds the threshold turns the site
  generic.
-/
import HotPath.Table.Basic
import HotPath.Unit.Site

namespace HotPath

/-- Installed units, and what decides about promotion sites. -/
structure UnitStore where
  /-- How many distinct values a promotion site may show. -/
  threshold : Nat := 4
  threshold_pos : 0 < threshold := by decide
  mergePoints : Table MergeKey CodeUnit := {}
  sites : Table Location SiteUnits := {}
  /-- The values that each site which is not generic has shown. -/
  observed : Table Location (KeySet Value) := {}
  nextId : Nat := 1
  /-- Nothing more is specialized. -/
  disabled : Bool := false

namespace UnitStore

/-- An empty store; a threshold of zero counts as one. -/
def ofThreshold (n : Nat) : UnitStore :=
  { threshold := max n 1, threshold_pos := Nat.lt_of_lt_of_le Nat.zero_lt_one (Nat.le_max_right n 1) }

/-- A number for a new unit. It only tells units apart, and like the numbers of `Stats` it is
unbounded: no store holds as many units as there are words. -/
def freshId (s : UnitStore) : Nat × UnitStore :=
  (s.nextId, { s with nextId := s.nextId + 1 })

/-- Stops all further specialization. -/
def disable (s : UnitStore) : UnitStore := { s with disabled := true }

/-! ## Merge points -/

/-- The unit of a merge point instance. -/
def lookup (s : UnitStore) (k : MergeKey) : Option CodeUnit := s.mergePoints.get? k

/-- Installs the unit of a merge point instance. -/
def install (s : UnitStore) (k : MergeKey) (u : CodeUnit) : UnitStore :=
  { s with mergePoints := s.mergePoints.insert k u }

/-! ## Promotion sites -/

/-- The units of a site. -/
def site (s : UnitStore) (loc : Location) : SiteUnits :=
  (s.sites.get? loc).getD .uninitialized

/-- The values that a site has shown. -/
def shown (s : UnitStore) (loc : Location) : KeySet Value :=
  (s.observed.get? loc).getD {}

/-- Whether a site is generic. -/
def isGeneric (s : UnitStore) (loc : Location) : Bool := (s.site loc).isMegamorphic

/-- The unit for a value at a site, under a taint. -/
def lookupPromotion (s : UnitStore) (loc : Location) (value : Value) (taint : Nat) :
    Option CodeUnit :=
  (s.site loc).lookup value taint

/-- Installs a unit for a value at a site, and says whether there was room. -/
def installPromotion (s : UnitStore) (loc : Location) (new : ValueUnit) : Bool × UnitStore :=
  let (units, installed) := (s.site loc).update new s.threshold
  (installed, { s with sites := s.sites.insert loc units })

/-- The number of units for single values at a site. -/
def promotionEntries (s : UnitStore) (loc : Location) : Nat := (s.site loc).size

/-- Whether a unit for the value would fit. -/
def hasRoom (s : UnitStore) (loc : Location) (value : Value) : Bool :=
  let units := s.site loc
  !units.isMegamorphic && (units.contains value || units.hasRoom s.threshold)

/-- Turns a site generic, and says whether it was not. -/
def makeGeneric (s : UnitStore) (loc : Location) : Bool × UnitStore :=
  if s.isGeneric loc then (false, s)
  else (true, { s with sites := s.sites.insert loc (.megamorphic none) })

@[simp] theorem isGeneric_makeGeneric (s : UnitStore) (loc : Location) :
    (s.makeGeneric loc).2.isGeneric loc = true := by
  unfold makeGeneric
  by_cases h : s.isGeneric loc = true
  · rw [if_pos h]
    exact h
  · rw [if_neg h]
    unfold isGeneric site
    rw [Table.get?_insert, if_pos rfl]
    rfl

/-- The unit for all values of a generic site. -/
def genericUnit (s : UnitStore) (loc : Location) : Option CodeUnit := (s.site loc).generic?

/-- Installs the unit for all values, if the site is generic. -/
def installGeneric (s : UnitStore) (loc : Location) (u : CodeUnit) : Bool × UnitStore :=
  if s.isGeneric loc then (true, { s with sites := s.sites.insert loc (.megamorphic (some u)) })
  else (false, s)

/-- The values that a site has shown, with one more. Past the threshold no more
are kept. -/
def addShown (s : UnitStore) (loc : Location) (value : Value) : KeySet Value :=
  let vs := s.shown loc
  if vs.size ≤ s.threshold then vs.add value else vs

/-- Notes that a site has shown a value, and says whether the site is generic. -/
def observePromotion (s : UnitStore) (loc : Location) (value : Value) : Bool × UnitStore :=
  if s.isGeneric loc then (true, s)
  else
    let vs := s.addShown loc value
    if vs.size ≤ s.threshold then (false, { s with observed := s.observed.insert loc vs })
    else (true, { (s.makeGeneric loc).2 with observed := s.observed.erase loc })

end UnitStore

end HotPath
