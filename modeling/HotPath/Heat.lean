/-
  HotPath.Heat

  How often things were passed. Counts only grow, and stop growing at the
  largest word. Inside a segment of a de-duplicating counter, each key counts
  once.
-/
import HotPath.Unit.Store

namespace HotPath

/-- What is counted. -/
inductive HeatKey where
  /-- Arrivals at a merge point instance. -/
  | mergePoint (key : MergeKey)
  /-- A value at a promotion site. -/
  | promotion (site : Location) (value : Value)
  /-- Any value at a generic promotion site. -/
  | generic (site : Location)
  /-- Passes through an arm of a split. -/
  | split (site : Location) (taken : Bool)
  deriving DecidableEq

instance : Digest HeatKey where
  digest
    | .mergePoint k => digest k
    | .promotion site value => Digest.mix (digest site) (digest value)
    | .generic site => digest site
    | .split site taken => Digest.mix (digest site) taken.toNat

/-- Counts. -/
structure Heat where
  counts : Table HeatKey Nat := {}
  dedup : Bool := false
  /-- The keys seen in the open segment of a de-duplicating counter. -/
  segment : Option (KeySet HeatKey) := none

namespace Heat

/-- The count of a key. -/
def count (h : Heat) (k : HeatKey) : Nat := (h.counts.get? k).getD 0

/-- Counts a key once more. -/
def bump (h : Heat) (k : HeatKey) : Heat :=
  { h with counts := h.counts.insert k (min (h.count k + 1) Word.max) }

/-- Counts a key, unless the open segment has seen it, and gives its count. -/
def observe (h : Heat) (k : HeatKey) : Nat × Heat :=
  match h.segment with
  | none => ((h.bump k).count k, h.bump k)
  | some seen =>
    if seen.contains k then (h.count k, h)
    else ((h.bump k).count k, { h.bump k with segment := some (seen.add k) })

@[simp] theorem count_bump (h : Heat) (k l : HeatKey) :
    (h.bump k).count l = if k = l then min (h.count k + 1) Word.max else h.count l := by
  unfold bump count
  rw [Table.get?_insert]
  split <;> rfl

/-- What observing gives is the count that it leaves. -/
theorem count_observe (h : Heat) (k : HeatKey) :
    (h.observe k).2.count k = (h.observe k).1 := by
  unfold observe
  cases h.segment with
  | none => rfl
  | some seen =>
    by_cases hk : seen.contains k = true
    · simp [hk]
    · simp only [hk]
      rfl

/-- Opens a new segment, if the counter de-duplicates. -/
def beginSegment (h : Heat) : Heat :=
  if h.dedup then { h with segment := some {} } else h

/-- Closes the segment. -/
def endSegment (h : Heat) : Heat := { h with segment := none }

/-- The number of keys that were counted. -/
def size (h : Heat) : Nat := h.counts.size

/-- The hottest keys with their counts, hottest first. -/
def hottest (h : Heat) (n : Nat) : List (HeatKey × Nat) :=
  (h.counts.entries.mergeSort (fun a b => decide (b.2 ≤ a.2))).take n

end Heat

/-- The key under which a value at a promotion site is counted. The store notes
the value first, which may turn the site generic. -/
def UnitStore.heatKey (s : UnitStore) (site : Location) (value : Value) : HeatKey × UnitStore :=
  let (generic, s) := s.observePromotion site value
  (if generic then .generic site else .promotion site value, s)

/-- Counts what a frame passed, with what the store has to note. -/
def Heat.record (h : Heat) (s : UnitStore) : Observation → Heat × UnitStore
  | .promotion site value =>
    let (k, s) := s.heatKey site value
    ((h.observe k).2, s)
  | .split site taken => ((h.observe (.split site taken)).2, s)

/-- Counts all that a frame passed, in order. -/
def Heat.recordAll (h : Heat) (s : UnitStore) (seen : Array Observation) : Heat × UnitStore :=
  seen.foldl (fun (p : Heat × UnitStore) o => p.1.record p.2 o) (h, s)

end HotPath
