/-
  HotPath.Proofs.Engine.Thresholds

  When an engine compiles. A diary (`Worker.Diary`) follows an engine with a store of its
  own through any calls, and lists the merge point instances that it has handled arrivals
  at. `Worker.Diary.compiles_at_threshold` says how the engine answers the next arrival:
  it interprets until the instance has been arrived at often enough, compiles then unless
  the instance is known to be empty, and from then on runs the one unit that it has
  compiled. The units for single values at promotion sites are compiled once as well.

  The invariant (`Books.Kept`) ties together the counters, the store and the list of all
  units that were compiled. As long as an instance has no unit, its count is the number
  of arrivals at it; and what is installed is what was compiled.
-/
import HotPath.Proofs.Engine.Crew
import HotPath.Proofs.Engine.Phases
import HotPath.Proofs.Unit.Counts

namespace HotPath

-- ============================================================================
-- Stores
-- ============================================================================

namespace UnitStore

/-- No unit has come or gone, but for the units of sites that turned generic. -/
structure KeepsUnits (s s' : UnitStore) : Prop where
  lookup_eq : ∀ k, s'.lookup k = s.lookup k
  site_eq : ∀ site, s'.isGeneric site = false → s'.site site = s.site site
  disabled : s.disabled = true → s'.disabled = true

namespace KeepsUnits

variable {s s' s'' : UnitStore} {site : Location}

theorem refl (s : UnitStore) : s.KeepsUnits s := ⟨fun _ => rfl, fun _ _ => rfl, id⟩

theorem not_generic (h : s.KeepsUnits s') (hg : s'.isGeneric site = false) :
    s.isGeneric site = false := by
  unfold isGeneric at hg ⊢
  rw [← h.site_eq site hg]
  exact hg

theorem trans (h : s.KeepsUnits s') (h' : s'.KeepsUnits s'') : s.KeepsUnits s'' where
  lookup_eq k := (h'.lookup_eq k).trans (h.lookup_eq k)
  site_eq site hg := (h'.site_eq site hg).trans (h.site_eq site (h'.not_generic hg))
  disabled hd := h'.disabled (h.disabled hd)

/-- A site is made generic. -/
theorem insert (s : UnitStore) (loc : Location) (u : Option CodeUnit) :
    s.KeepsUnits { s with sites := s.sites.insert loc (.megamorphic u) } := by
  refine ⟨fun _ => rfl, fun site hg => ?_, id⟩
  rw [isGeneric_insert] at hg
  rw [site_insert]
  split at hg
  · cases hg
  · next hne => rw [if_neg hne]

theorem makeGeneric (s : UnitStore) (loc : Location) : s.KeepsUnits (s.makeGeneric loc).2 := by
  unfold UnitStore.makeGeneric
  split
  · exact refl s
  · exact insert s loc none

theorem installGeneric (s : UnitStore) (loc : Location) (u : CodeUnit) :
    s.KeepsUnits (s.installGeneric loc u).2 := by
  unfold UnitStore.installGeneric
  split
  · exact insert s loc (some u)
  · exact refl s

theorem decide (s : UnitStore) (threshold : Nat) (site : Location) (v : Value) (count : Nat)
    (f : Frame) : s.KeepsUnits (s.decide threshold site v count f).2 := by
  rcases s.decide_snd threshold site v count f with heq | heq
  · rw [heq]
    exact refl s
  · rw [heq]
    exact makeGeneric s site

theorem heatKey (s : UnitStore) (loc : Location) (v : Value) :
    s.KeepsUnits (s.heatKey loc v).2 := by
  obtain ⟨observed, heq | heq⟩ := s.heatKey_snd loc v
  · rw [heq]
    exact ⟨fun _ => rfl, fun _ _ => rfl, id⟩
  · rw [heq]
    exact (makeGeneric s loc).trans ⟨fun _ => rfl, fun _ _ => rfl, id⟩

theorem recordSegment (h : Heat) (s : UnitStore) (seen : Array Observation) :
    s.KeepsUnits (h.recordSegment s seen).2 := by
  refine Heat.recordAll_preserves (P := fun _ s' => s.KeepsUnits s') (fun h' s' o hs => ?_)
    (refl s) seen
  cases o with
  | promotion site v => exact hs.trans (heatKey s' site v)
  | split site taken => exact hs

end KeepsUnits

/-- A value at a promotion site does not count as an arrival. -/
theorem heatKey_ne (s : UnitStore) (loc : Location) (v : Value) (k : MergeKey) :
    (s.heatKey loc v).1 ≠ .mergePoint k := by
  unfold heatKey
  dsimp only
  split
  · exact fun h => by cases h
  · exact fun h => by cases h

end UnitStore

-- ============================================================================
-- Counters
-- ============================================================================

namespace Heat

/-- Counting a segment leaves arrivals alone. -/
theorem count_recordSegment (h : Heat) (s : UnitStore) (seen : Array Observation) (k : MergeKey) :
    (h.recordSegment s seen).1.count (.mergePoint k) = h.count (.mergePoint k) := by
  refine count_recordSegment_of_notCounted (fun o _ hcounts => ?_)
  cases o with
  | promotion site v => rcases hcounts with hk | hk <;> cases hk
  | split site taken => cases hcounts

end Heat

-- ============================================================================
-- What is kept
-- ============================================================================

namespace Books

/-- The units that were compiled for a merge point instance, in order. -/
def unitsFor (b : Books) (k : MergeKey) : List CodeUnit :=
  b.committed.toList.filter (fun u => u.entry = .mergePoint k)

/-- The units that were compiled for a value at a promotion site, under a taint. -/
def unitsForValue (b : Books) (site : Location) (v : Value) (taint : Nat) : List CodeUnit :=
  b.committed.toList.filter (fun u => u.entry = .promotion site v ∧ u.entryTaint = taint)

/-- The books after the arrivals of a log, the last one first. Arrivals are counted as long
as their instance has no unit, instances with a unit have been arrived at often enough,
and units are installed exactly if they were compiled. -/
structure Kept (pol : Policy) (log : List MergeKey) (b : Books) : Prop where
  closed : b.heat.segment = none
  counted : b.store.disabled = false → ∀ k, b.store.lookup k = none →
    b.heat.count (.mergePoint k) = min (log.count k) Word.max
  reached : ∀ k u, b.store.lookup k = some u →
    u.entryTaint = k.taint ∧ pol.mergePointThreshold ≤ log.count k
  keys : ∀ k, b.unitsFor k = (b.store.lookup k).toList
  values : ∀ site v taint, b.store.isGeneric site = false →
    b.unitsForValue site v taint = (b.store.lookupPromotion site v taint).toList
  once : ∀ site v taint, (b.unitsForValue site v taint).length ≤ 1

/-- A change that concerns no arrival and no unit. -/
structure Silent (b b' : Books) : Prop where
  committed_eq : b'.committed = b.committed
  closed : b.heat.segment = none → b'.heat.segment = none
  count_eq : ∀ k, b'.heat.count (.mergePoint k) = b.heat.count (.mergePoint k)
  units : b.store.KeepsUnits b'.store

variable {p : Program} {pol : Policy} {log : List MergeKey} {b b' b₁ : Books} {k : MergeKey}
  {site : Location} {v : Value} {f : Frame}

theorem Kept.silent (h : b.Kept pol log) (hb : b.Silent b') : b'.Kept pol log := by
  have hunits : ∀ k, b'.unitsFor k = b.unitsFor k := by
    intro k
    unfold unitsFor
    rw [hb.committed_eq]
  have hvalues : ∀ site v taint, b'.unitsForValue site v taint = b.unitsForValue site v taint := by
    intro site v taint
    unfold unitsForValue
    rw [hb.committed_eq]
  refine ⟨hb.closed h.closed, fun hd k hk => ?_, fun k u hu => ?_, fun k => ?_,
    fun site v taint hg => ?_, fun site v taint => ?_⟩
  · have hd : b.store.disabled = false :=
      Bool.eq_false_iff.mpr (fun hd' => Bool.eq_false_iff.mp hd (hb.units.disabled hd'))
    rw [hb.units.lookup_eq] at hk
    rw [hb.count_eq]
    exact h.counted hd k hk
  · rw [hb.units.lookup_eq] at hu
    exact h.reached k u hu
  · rw [hunits, hb.units.lookup_eq]
    exact h.keys k
  · unfold UnitStore.lookupPromotion
    rw [hvalues, hb.units.site_eq site hg]
    exact h.values site v taint (hb.units.not_generic hg)
  · rw [hvalues]
    exact h.once site v taint

/-- Noting a value concerns no arrival and no unit. -/
theorem silent_noted (b : Books) (site : Location) (v : Value) : b.Silent (b.noted site v) where
  committed_eq := rfl
  closed hclosed := Heat.segment_observe hclosed _
  count_eq k := Heat.count_observe_of_ne b.heat (b.store.heatKey_ne site v k)
  units := .heatKey b.store site v

theorem silent_segmented (b : Books) (seen : Array Observation) : b.Silent (b.segmented seen) where
  committed_eq := rfl
  closed _ := rfl
  count_eq k := b.heat.count_recordSegment b.store seen k
  units := .recordSegment b.heat b.store seen

theorem silent_store {s : UnitStore} (h : b.store.KeepsUnits s) : b.Silent { b with store := s } :=
  ⟨rfl, id, fun _ => rfl, h⟩

-- ============================================================================
-- Arrivals
-- ============================================================================

theorem isActive_iff : b.isActive pol = true ↔ pol.enabled = true ∧ b.store.disabled = false := by
  unfold isActive
  rw [Bool.and_eq_true, Bool.not_eq_true']

/-- An arrival at an instance that has a unit, or of which nobody takes notice. -/
theorem Kept.passed (h : b.Kept pol log) (hon : pol.enabled = true)
    (hpass : b.isActive pol = true → ∃ u, b.store.lookup k = some u ∧ u.entryTaint = k.taint) :
    b.Kept pol (k :: log) := by
  refine { h with counted := fun hd l hl => ?_, reached := fun l u hu => ?_ }
  · have hne : k ≠ l := by
      rintro rfl
      obtain ⟨u, hu, -⟩ := hpass (isActive_iff.mpr ⟨hon, hd⟩)
      rw [hl] at hu
      cases hu
    rw [List.count_cons_of_ne hne]
    exact h.counted hd l hl
  · obtain ⟨htaint, hle⟩ := h.reached l u hu
    exact ⟨htaint, Nat.le_trans hle List.count_le_count_cons⟩

/-- An instance whose unit does not fit has none. -/
theorem Kept.lookup_eq_none (h : b.Kept pol log) (hlacks : b.Lacks k) :
    b.store.lookup k = none := by
  cases hu : b.store.lookup k with
  | none => rfl
  | some u => exact absurd (h.reached k u hu).1 (hlacks u hu)

/-- An arrival that is counted. -/
theorem Kept.count (h : b.Kept pol log) (hnone : b.store.lookup k = none) :
    (b.counted (.mergePoint k)).Kept pol (k :: log) := by
  have hcount : ∀ l, (b.counted (.mergePoint k)).heat.count (.mergePoint l) =
      if k = l then min (b.heat.count (.mergePoint k) + 1) Word.max
      else b.heat.count (.mergePoint l) := by
    intro l
    unfold Books.counted
    rw [Heat.observe_eq h.closed]
    simp only [Heat.count_bump, HeatKey.mergePoint.injEq]
  refine ⟨Heat.segment_observe h.closed _, fun hd l hl => ?_, fun l u hu => ?_, h.keys, h.values,
    h.once⟩
  · rw [hcount]
    by_cases hkl : k = l
    · subst hkl
      rw [if_pos rfl, h.counted hd k hnone, List.count_cons_self]
      omega
    · rw [if_neg hkl, List.count_cons_of_ne hkl]
      exact h.counted hd l hl
  · obtain ⟨htaint, hle⟩ := h.reached l u hu
    exact ⟨htaint, Nat.le_trans hle List.count_le_count_cons⟩

-- ============================================================================
-- Units
-- ============================================================================

/-- A unit has been compiled, and the store is another one. -/
def pushed (b : Books) (u : CodeUnit) (s : UnitStore) : Books :=
  { b with committed := b.committed.push u, store := s }

theorem filter_pushed (b : Books) (u : CodeUnit) (s : UnitStore) (P : CodeUnit → Prop)
    [DecidablePred P] :
    (b.pushed u s).committed.toList.filter (fun u => P u) =
      b.committed.toList.filter (fun u => P u) ++ if P u then [u] else [] := by
  unfold pushed
  rw [Array.toList_push, List.filter_append]
  congr 1
  split
  · next hu => simp [hu]
  · next hu => simp [hu]

theorem unitsFor_pushed (b : Books) (u : CodeUnit) (s : UnitStore) (k : MergeKey) :
    (b.pushed u s).unitsFor k = b.unitsFor k ++ if u.entry = .mergePoint k then [u] else [] :=
  b.filter_pushed u s _

theorem unitsForValue_pushed (b : Books) (u : CodeUnit) (s : UnitStore) (site : Location)
    (v : Value) (taint : Nat) :
    (b.pushed u s).unitsForValue site v taint = b.unitsForValue site v taint ++
      if u.entry = .promotion site v ∧ u.entryTaint = taint then [u] else [] :=
  b.filter_pushed u s _

/-- Compiling and installing keeps the books, if they are kept where a unit is put into
the store. -/
theorem Compiles.kept {region : Except Fault Region} {entry : UnitEntry} {taint : Nat}
    {unit : Option CodeUnit} {put : CodeUnit → UnitStore → UnitStore}
    (h : b.Compiles p pol region entry taint unit b₁) (hb : b.Kept pol log)
    (hput : ∀ u, u.entry = entry → u.entryTaint = taint →
      (b.pushed u (put u b.store.freshId.2)).Kept pol log) :
    (b₁.installed unit put).Kept pol log := by
  cases h with
  | @unit r t u hr ht hentry htaint => exact hput u hentry htaint
  | empty => exact hb.silent ⟨rfl, id, fun _ => rfl, .refl _⟩
  | gaveUp => exact hb
  | ended => exact hb.silent (silent_store ⟨fun _ => rfl, fun _ _ => rfl, fun _ => rfl⟩)

/-- A unit is installed for a merge point instance. -/
theorem Kept.install {u : CodeUnit} (h : b.Kept pol log) (hnone : b.store.lookup k = none)
    (hreached : pol.mergePointThreshold ≤ log.count k) (hentry : u.entry = .mergePoint k)
    (htaint : u.entryTaint = k.taint) :
    (b.pushed u (b.store.freshId.2.install k u)).Kept pol log := by
  have hlookup : ∀ l, (b.store.freshId.2.install k u).lookup l =
      if k = l then some u else b.store.lookup l := fun l => Table.get?_insert _ k l u
  have hvalue : ∀ site v taint, (b.pushed u (b.store.freshId.2.install k u)).unitsForValue site v
      taint = b.unitsForValue site v taint := by
    intro site v taint
    rw [unitsForValue_pushed, hentry, if_neg (fun heq => by cases heq.1), List.append_nil]
  refine ⟨h.closed, fun hd l hl => ?_, fun l u' hu => ?_, fun l => ?_, fun site v taint hg => ?_,
    fun site v taint => ?_⟩
  · have hl : (b.store.freshId.2.install k u).lookup l = none := hl
    rw [hlookup] at hl
    split at hl
    · cases hl
    · exact h.counted hd l hl
  · have hu : (b.store.freshId.2.install k u).lookup l = some u' := hu
    rw [hlookup] at hu
    split at hu
    · next heq =>
      cases hu
      exact heq ▸ ⟨htaint, hreached⟩
    · exact h.reached l u' hu
  · show _ = ((b.store.freshId.2.install k u).lookup l).toList
    rw [unitsFor_pushed, hentry, hlookup, h.keys]
    by_cases hkl : k = l
    · subst hkl
      rw [hnone, if_pos rfl, if_pos rfl]
      rfl
    · rw [if_neg hkl, if_neg (fun heq => hkl (UnitEntry.mergePoint.inj heq)), List.append_nil]
  · rw [hvalue]
    exact h.values site v taint hg
  · rw [hvalue]
    exact h.once site v taint

/-- A unit is installed for a value. -/
theorem Kept.installPromotion {u : CodeUnit} {taint : Nat} (h : b.Kept pol log)
    (hg : b.store.isGeneric site = false) (hroom : b.store.hasRoom site v = true)
    (hnone : b.store.lookupPromotion site v taint = none) (hentry : u.entry = .promotion site v)
    (htaint : u.entryTaint = taint) :
    (b.pushed u (b.store.freshId.2.installPromotion site ⟨v, taint, u⟩).2).Kept pol log := by
  have hkey : ∀ k, (b.pushed u (b.store.freshId.2.installPromotion site
      ⟨v, taint, u⟩).2).unitsFor k = b.unitsFor k := by
    intro k
    rw [unitsFor_pushed, hentry, if_neg (fun heq => by cases heq), List.append_nil]
  -- the new unit is for the one value and taint that had none
  have hnew : ∀ site' v' taint', (u.entry = .promotion site' v' ∧ u.entryTaint = taint') ↔
      (site = site' ∧ (⟨v, taint, u⟩ : ValueUnit).isFor v' taint' = true) := by
    intro site' v' taint'
    rw [hentry, htaint, UnitEntry.promotion.injEq, ValueUnit.isFor_iff, and_assoc]
  have hlookup := UnitStore.lookupPromotion_installPromotion
    (UnitStore.installPromotion_of_hasRoom (s := b.store.freshId.2) ⟨v, taint, u⟩ hroom)
  have hempty : b.unitsForValue site v taint = [] := by rw [h.values site v taint hg, hnone]; rfl
  refine ⟨h.closed, h.counted, h.reached, fun k => (hkey k).trans (h.keys k),
    fun site' v' taint' hg' => ?_, fun site' v' taint' => ?_⟩
  · show _ = ((b.store.freshId.2.installPromotion site ⟨v, taint, u⟩).2.lookupPromotion site' v'
      taint').toList
    rw [unitsForValue_pushed, hlookup]
    by_cases hfor : site = site' ∧ (⟨v, taint, u⟩ : ValueUnit).isFor v' taint' = true
    · rw [if_pos ((hnew site' v' taint').mpr hfor), if_pos hfor]
      obtain ⟨rfl, hfor⟩ := hfor
      obtain ⟨hv, ht⟩ := ValueUnit.isFor_iff.mp hfor
      cases hv
      cases ht
      rw [hempty]
      rfl
    · rw [if_neg (fun hn => hfor ((hnew site' v' taint').mp hn)), if_neg hfor, List.append_nil]
      refine h.values site' v' taint' ?_
      by_cases hsite : site = site'
      · exact hsite ▸ hg
      · have hg' : (b.store.freshId.2.installPromotion site ⟨v, taint, u⟩).2.isGeneric site' =
            false := hg'
        rw [UnitStore.installPromotion_eq, UnitStore.isGeneric_insert, if_neg hsite] at hg'
        exact hg'
  · rw [unitsForValue_pushed]
    split
    · next hn =>
      obtain ⟨rfl, hfor⟩ := (hnew site' v' taint').mp hn
      obtain ⟨hv, ht⟩ := ValueUnit.isFor_iff.mp hfor
      cases hv
      cases ht
      rw [hempty]
      exact Nat.le_refl 1
    · rw [List.append_nil]
      exact h.once site' v' taint'

/-- A unit is installed for all values of a site. -/
theorem Kept.installGeneric {u : CodeUnit} (h : b.Kept pol log) (hentry : u.entry = .generic site) :
    (b.pushed u (b.store.freshId.2.installGeneric site u).2).Kept pol log := by
  have hfresh : b.store.KeepsUnits b.store.freshId.2 := ⟨fun _ => rfl, fun _ _ => rfl, id⟩
  have hb := h.silent (silent_store (hfresh.trans (.installGeneric _ site u)))
  refine ⟨hb.closed, hb.counted, hb.reached, fun k => ?_, fun site' v taint hg => ?_,
    fun site' v taint => ?_⟩
  · rw [unitsFor_pushed, hentry, if_neg (fun heq => by cases heq), List.append_nil]
    exact hb.keys k
  · rw [unitsForValue_pushed, hentry, if_neg (fun heq => by cases heq.1), List.append_nil]
    exact hb.values site' v taint hg
  · rw [unitsForValue_pushed, hentry, if_neg (fun heq => by cases heq.1), List.append_nil]
    exact hb.once site' v taint

-- ============================================================================
-- Turns
-- ============================================================================

/-- A unit that is found for a value under a taint was made for the taint. -/
theorem Kept.entryTaint_eq {u : CodeUnit} {taint : Nat} (h : b.Kept pol log)
    (hg : b.store.isGeneric site = false)
    (hu : b.store.lookupPromotion site v taint = some u) : u.entryTaint = taint := by
  have hmem : u ∈ b.unitsForValue site v taint := by
    rw [h.values site v taint hg, hu]
    exact List.mem_singleton_self u
  exact (of_decide_eq_true (List.mem_filter.mp hmem).2).2

/-- A turn keeps the books, with the arrival that it handles. -/
theorem Change.kept {handled : Option MergeKey} (h : b.Change p pol handled b')
    (hb : b.Kept pol log) (hon : pol.enabled = true) : b'.Kept pol (handled.toList ++ log) := by
  cases h with
  | rest => exact hb
  | passed hpass => exact hb.passed hon hpass
  | cold hactive hlacks hcold => exact hb.count (hb.lookup_eq_none hlacks)
  | @hot loc f k unit b₁ hk hactive hlacks hhot hempty h =>
    have hnone := hb.lookup_eq_none hlacks
    have hcounted := hb.count hnone
    refine h.kept hcounted (fun u hentry htaint => hcounted.install hnone ?_ hentry htaint)
    have hcount := hcounted.counted (isActive_iff.mp hactive).2 k hnone
    rw [← b.heat.count_observe] at hhot
    exact Nat.le_trans (hcount ▸ hhot) (Nat.min_le_left _ _)
  | segment seen gap =>
    have hseg := hb.silent (b.silent_segmented seen)
    cases gap with
    | false => exact hseg
    | true => exact hseg.silent (silent_store ⟨fun _ => rfl, fun _ _ => rfl, fun _ => rfl⟩)
  | noted site v f hactive =>
    exact (hb.silent (b.silent_noted site v)).silent (silent_store (.decide _ _ site v _ f))
  | @promoted site reg f unit b₁ hactive hdecision hempty h =>
    have hnoted := hb.silent (b.silent_noted site (f.get reg))
    obtain ⟨-, hg, hfit, -, hroom⟩ := UnitStore.decide_eq_specialize hdecision
    have hnone :
        (b.noted site (f.get reg)).store.lookupPromotion site (f.get reg) f.mask = none := by
      cases hu : (b.noted site (f.get reg)).store.lookupPromotion site (f.get reg) f.mask with
      | none => rfl
      | some u => exact absurd (hnoted.entryTaint_eq hg hu) (CodeUnit.fitting?_eq_none hfit hu)
    exact h.kept hnoted (fun u hentry htaint =>
      hnoted.installPromotion hg hroom hnone hentry htaint)
  | @generic site v f unit b₁ hactive hdecision hempty h =>
    have hnoted := hb.silent (b.silent_noted site v)
    exact h.kept hnoted (fun u hentry _ => hnoted.installGeneric hentry)

end Books

-- ============================================================================
-- Diaries
-- ============================================================================

namespace Worker

/-- An engine with a store of its own, after any calls and in the middle of one, and the
merge point instances that it has handled arrivals at, the last one first. -/
inductive Diary (p : Program) (pol : Policy) : List MergeKey → Worker → UnitStore → Prop where
  | new {e : Engine} (he : e.IsNew p pol) :
    Diary p pol [] (idle e) (.ofThreshold pol.megamorphicThreshold)
  | step {log : List MergeKey} {w w' : Worker} {s s' : UnitStore} {a : Act}
    (h : Diary p pol log w s) (hs : w.step? s a = some (w', s')) :
    Diary p pol (w.handles.toList ++ log) w' s'

namespace Diary

variable {p : Program} {pol : Policy} {log : List MergeKey} {w : Worker} {s : UnitStore}

theorem program_eq (h : Diary p pol log w s) : w.engine.program = p ∧ w.engine.policy = pol := by
  induction h with
  | new he => exact ⟨he.isBlank.program_eq, he.isBlank.policy_eq⟩
  | step _ hs ih =>
    have hadv := advances_of_step? hs
    exact ⟨hadv.program_eq.trans ih.1, hadv.policy_eq.trans ih.2⟩

theorem kept (h : Diary p pol log w s) (hon : pol.enabled = true) : (w.books s).Kept pol log := by
  induction h with
  | @new e he =>
    have hblank := he.isBlank
    have hnone : ∀ P : CodeUnit → Bool, e.committed.toList.filter P = [] := by
      intro P
      rw [hblank.committed_eq]
      rfl
    refine ⟨hblank.segment_eq, fun _ k _ => ?_, fun k u hu => ?_, fun k => hnone _,
      fun site v taint _ => ?_, fun site v taint => ?_⟩
    · show e.heat.count _ = _
      unfold Heat.count
      rw [hblank.counts_eq]
      rfl
    · cases hu
    · exact hnone _
    · exact Nat.le_trans (Nat.le_of_eq (congrArg List.length (hnone _))) (Nat.zero_le 1)
  | step h hs ih =>
    have hadv := advances_of_step? hs
    obtain ⟨-, hpolicy⟩ := h.program_eq
    exact (hpolicy ▸ hadv.change).kept ih hon

theorem after_steps {x y : Worker × UnitStore} (hxy : Relation.ReflTransGen Worker.Step x y)
    (h : Diary p pol log x.1 x.2) : ∃ log', Diary p pol (log' ++ log) y.1 y.2 := by
  induction hxy with
  | refl => exact ⟨[], h⟩
  | tail _ hstep ih =>
    obtain ⟨log', hy⟩ := ih
    obtain ⟨a, ha⟩ := hstep
    have hz := hy.step ha
    rw [← List.append_assoc] at hz
    exact ⟨_, hz⟩

/-- The diary goes on over every call, whether it succeeds or fails. -/
theorem after_call {e : Engine} (h : Diary p pol log (idle e) s) {c : Engine.Call} {fuel : Nat}
    {io : Console} {d : Desk} (hd : (c.make fuel ⟨e, s, io⟩).state? = some d) :
    ∃ log', Diary p pol (log' ++ log) (idle d.engine) d.store :=
  after_steps (Engine.Call.steps_of_make hd) h

theorem orderly (h : Diary p pol log w s) : s.Orderly ∧ w.engine.heat.Fits s := by
  induction h with
  | new he => exact ⟨UnitStore.orderly_ofThreshold _, he.isBlank.fits _⟩
  | step _ hs ih =>
    have hproceeds := (advances_of_step? hs).change.proceeds ih.1 ih.2
    exact ⟨hproceeds.orderly, hproceeds.fits⟩

-- ============================================================================
-- Answers
-- ============================================================================

variable {loc : Location} {greens : List Reg} {f : Frame} {k : MergeKey}

/-- The count of an instance that has no unit, with one more arrival. -/
theorem observe_eq (h : Diary p pol log w s) (hon : pol.enabled = true) (hs : s.disabled = false)
    (hnone : s.lookup k = none) :
    (w.engine.heat.observe (.mergePoint k)).1 = min (log.count k + 1) Word.max := by
  have hcounted := (h.kept hon).count hnone
  rw [← Heat.count_observe, ← List.count_cons_self]
  exact hcounted.counted hs k hnone

/-- An instance that has not been arrived at often enough has no unit. -/
theorem lookup_eq_none (h : Diary p pol log w s) (hon : pol.enabled = true)
    (hlt : log.count k + 1 < pol.mergePointThreshold) : s.lookup k = none := by
  cases hu : s.lookup k with
  | none => rfl
  | some u =>
    have hle := ((h.kept hon).reached k u hu).2
    omega

/-- A unit that was compiled for an instance is installed for it. -/
theorem lookup_eq_some (h : Diary p pol log w s) (hon : pol.enabled = true) {u : CodeUnit}
    (hu : u ∈ w.engine.committed) (hentry : u.entry = .mergePoint k) : s.lookup k = some u := by
  have hmem : u ∈ (w.books s).unitsFor k :=
    List.mem_filter.mpr ⟨Array.mem_toList_iff.mpr hu, decide_eq_true hentry⟩
  rw [(h.kept hon).keys k] at hmem
  exact Option.mem_toList.mp hmem

theorem isActive (h : Diary p pol log w s) (hon : pol.enabled = true) (hs : s.disabled = false)
    (io : Console) : Desk.isActive ⟨w.engine, s, io⟩ = true := by
  have hactive : (w.books s).isActive w.engine.policy = true :=
    Books.isActive_iff.mpr ⟨h.program_eq.2 ▸ hon, hs⟩
  exact hactive

theorem ofFrame_eq (h : Diary p pol log w s) (hi : p.instr? loc = some (.mergePoint greens))
    (hk : k = .ofFrame loc greens f) : k = .ofFrame loc (w.engine.program.greens loc) f := by
  rw [hk, h.program_eq.1, Program.greens, hi]

section

variable (h : Diary p pol log w s) (hon : pol.enabled = true) (hs : s.disabled = false)
  (hi : p.instr? loc = some (.mergePoint greens)) (hphase : w.engine.phase ≠ .compiling)
  (hk : k = .ofFrame loc greens f) (fuel : Nat) (single : Bool) (io : Console)

include h hon hs hi hphase hk

/-- The answer to an arrival at an instance that has no unit. -/
theorem turn_of_lookup_eq_none (hT : pol.mergePointThreshold ≤ Word.max)
    (hnone : s.lookup k = none) :
    Engine.turn fuel single (.arrive loc f) ⟨w.engine, s, io⟩ =
      if log.count k + 1 < pol.mergePointThreshold ∨
          w.engine.emptyEntries.contains (.mergePoint k) = true then
        .done (.interpret loc.after f)
          ((Desk.armed ⟨w.engine, s, io⟩ loc).counted (.mergePoint k))
      else Engine.compileMergePoint loc f k
        ((Desk.armed ⟨w.engine, s, io⟩ loc).counted (.mergePoint k)) := by
  have hcode : (p.instr? loc.after).isSome = true :=
    Program.isSome_instr?_after hi (List.mem_singleton_self _)
  have hcount : (w.engine.heat.observe (.mergePoint k)).1 < w.engine.policy.mergePointThreshold ↔
      log.count k + 1 < pol.mergePointThreshold := by
    rw [h.observe_eq hon hs hnone, h.program_eq.2]
    omega
  have hfit : CodeUnit.fitting? f (s.lookup k) = none := by rw [hnone]; rfl
  show Engine.onMergePoint loc f ⟨w.engine, s, io⟩ = _
  rw [Engine.onMergePoint_counted hphase (h.isActive hon hs io) (h.ofFrame_eq hi hk) hfit]
  simp only [hcount]
  split
  · exact Engine.interpretAfter_eq hcode _
  · rfl

/-- The answer to an arrival at an instance that has a unit. -/
theorem turn_of_lookup_eq_some {u : CodeUnit} (hu : s.lookup k = some u) :
    u.accepts f = true ∧ Engine.turn fuel single (.arrive loc f) ⟨w.engine, s, io⟩ =
      .done (.execute u f) (Desk.armed ⟨w.engine, s, io⟩ loc) := by
  have htaint : u.entryTaint = f.mask := by
    rw [((h.kept hon).reached k u hu).1, hk]
    rfl
  have haccepts := CodeUnit.accepts_iff.mpr htaint
  have hfit : CodeUnit.fitting? f (s.lookup k) = some u := by
    rw [hu]
    exact if_pos haccepts
  rw [h.ofFrame_eq hi hk] at hfit
  exact ⟨haccepts, Engine.onMergePoint_unit hphase (h.isActive hon hs io) hfit⟩

end

/-- A unit for a value is only compiled when the value is hot, at a site that is not
generic. -/
theorem hot_of_push (h : Diary p pol log w s) {a : Act} {w' : Worker} {s' : UnitStore}
    (hs : w.step? s a = some (w', s')) {u : CodeUnit}
    (hpush : w'.engine.committed = w.engine.committed.push u) {site : Location} {v : Value}
    (hentry : u.entry = .promotion site v) :
    pol.promotionThreshold ≤ w'.engine.heat.count (.promotion site v) ∧
      s.isGeneric site = false ∧ s'.isGeneric site = false := by
  have hchange := (advances_of_step? hs).change
  obtain ⟨horderly, -⟩ := h.orderly
  obtain ⟨f, hdecision, -, hheat, -⟩ := hchange.eq_of_push hpush hentry
  obtain ⟨-, hg, -, hcount, -⟩ := UnitStore.decide_eq_specialize hdecision
  have hnoted := horderly.noted site v
  refine ⟨?_, hnoted.grows.not_generic hg, (hchange.installed_of_push horderly hpush hentry).1⟩
  have hkey : (w.books s).heatKey site v = .promotion site v := (hnoted.single hg).1
  have hheat : w'.engine.heat = (w.engine.heat.observe (.promotion site v)).2 := hkey ▸ hheat
  rw [hkey] at hcount
  rw [hheat, Heat.count_observe, ← h.program_eq.2]
  exact hcount

/-- Compilation happens at the threshold, and once. After any calls, an arrival at a merge
point instance is interpreted while it is one of the first, short of the threshold; later
ones compile, as long as there is no unit and the instance is not known to be empty; and
after a unit was compiled, they run this unit. So no instance gets a second unit. Neither
does a value at a promotion site under one taint, which moreover is compiled only when it
is hot and the site is not generic.

Only an engine that a fault has left compiling takes no arrivals
(`Engine.onMergePoint_refused`), and then they are not in the diary. -/
theorem compiles_at_threshold (h : Diary p pol log w s) (hon : pol.enabled = true)
    (hT : pol.mergePointThreshold ≤ Word.max) (hs : s.disabled = false) :
    (∀ loc greens f, p.instr? loc = some (.mergePoint greens) → w.engine.phase ≠ .compiling →
      ∀ fuel single io k, k = .ofFrame loc greens f →
        (log.count k + 1 < pol.mergePointThreshold →
          Engine.turn fuel single (.arrive loc f) ⟨w.engine, s, io⟩ =
            .done (.interpret loc.after f)
              ((Desk.armed ⟨w.engine, s, io⟩ loc).counted (.mergePoint k))) ∧
        (pol.mergePointThreshold ≤ log.count k + 1 → s.lookup k = none →
          w.engine.emptyEntries.contains (.mergePoint k) = false →
          Engine.turn fuel single (.arrive loc f) ⟨w.engine, s, io⟩ =
            Engine.compileMergePoint loc f k
              ((Desk.armed ⟨w.engine, s, io⟩ loc).counted (.mergePoint k))) ∧
        ∀ u ∈ w.engine.committed, u.entry = .mergePoint k → u.accepts f = true ∧
          Engine.turn fuel single (.arrive loc f) ⟨w.engine, s, io⟩ =
            .done (.execute u f) (Desk.armed ⟨w.engine, s, io⟩ loc)) ∧
    (∀ k, (w.engine.committed.toList.filter (fun u => u.entry = .mergePoint k)).length ≤ 1) ∧
    (∀ site v taint, (w.engine.committed.toList.filter (fun u =>
      u.entry = .promotion site v ∧ u.entryTaint = taint)).length ≤ 1) ∧
    ∀ a w' s', w.step? s a = some (w', s') →
      w'.engine.committed = w.engine.committed ∨
        ∃ u, w'.engine.committed = w.engine.committed.push u ∧
          ∀ site v, u.entry = .promotion site v →
            pol.promotionThreshold ≤ w'.engine.heat.count (.promotion site v) ∧
              s.isGeneric site = false ∧ s'.isGeneric site = false := by
  have hkept := h.kept hon
  refine ⟨fun loc greens f hi hphase fuel single io k hk =>
    ⟨fun hlt => ?_, fun hle hnone hempty => ?_, fun u hu hentry => ?_⟩,
    fun k => ?_, fun site v taint => ?_, fun a w' s' hstep => ?_⟩
  · rw [turn_of_lookup_eq_none h hon hs hi hphase hk fuel single io hT (h.lookup_eq_none hon hlt),
      if_pos (Or.inl hlt)]
  · rw [turn_of_lookup_eq_none h hon hs hi hphase hk fuel single io hT hnone, if_neg]
    rw [hempty]
    exact not_or.mpr ⟨Nat.not_lt.mpr hle, Bool.false_ne_true⟩
  · exact turn_of_lookup_eq_some h hon hs hi hphase hk fuel single io
      (h.lookup_eq_some hon hu hentry)
  · show ((w.books s).unitsFor k).length ≤ 1
    rw [hkept.keys k]
    exact Option.length_toList_le
  · exact hkept.once site v taint
  · refine (advances_of_step? hstep).change.committed_eq.imp_right ?_
    rintro ⟨u, hpush⟩
    exact ⟨u, hpush, fun site v hentry => h.hot_of_push hstep hpush hentry⟩

-- ============================================================================
-- A patient engine
-- ============================================================================

/-- Compiles the loop at the second arrival. -/
def patientPolicy : Policy := { mergePointThreshold := 2, promotionThreshold := 1 }

/-- A new engine for it. -/
def patientEngine : Engine := .ofValid Trial.countdownProgram patientPolicy rfl

/-- A frame at the loop's merge point, after an input was read. -/
def patientFrame : Frame := ⟨[⟨.int 3, false⟩, ⟨.int 1, false⟩, ⟨.int 7, true⟩]⟩

/-- The instance of the merge point. -/
def patientKey : MergeKey := .ofFrame ⟨0, 3⟩ [1] patientFrame

/-- The first arrival at the loop would be interpreted. After a run of the program it
would run the one unit that was compiled for it. -/
theorem compiles_at_threshold_patient :
    (∀ io, ∃ d, Engine.turn 40 false (.arrive ⟨0, 3⟩ patientFrame)
      ⟨patientEngine, .ofThreshold 4, io⟩ = .done (.interpret ⟨0, 4⟩ patientFrame) d) ∧
    ∃ log w s u, Diary Trial.countdownProgram patientPolicy log w s ∧ u ∈ w.engine.committed ∧
      (∀ io, ∃ d, Engine.turn 40 false (.arrive ⟨0, 3⟩ patientFrame) ⟨w.engine, s, io⟩ =
        .done (.execute u patientFrame) d) ∧
      (w.engine.committed.toList.filter (fun u =>
        u.entry = .mergePoint patientKey)).length ≤ 1 := by
  have hnew : Diary Trial.countdownProgram patientPolicy [] (idle patientEngine) (.ofThreshold 4) :=
    .new (Engine.isNew_ofValid rfl)
  have hinstr : Trial.countdownProgram.instr? ⟨0, 3⟩ = some (.mergePoint [1]) := rfl
  have hrun : (Engine.Call.program.make 40 ⟨patientEngine, .ofThreshold 4,
      { input := [.int 7] }⟩).state?.any (fun d => d.engine.phase ≠ .compiling ∧
        d.store.disabled = false ∧ d.engine.committed.toList.any (fun u =>
          u.entry = .mergePoint patientKey) = true) = true := by
    decide +kernel
  obtain ⟨d, hd, hrun⟩ := (Option.any_eq_true _ _).mp hrun
  obtain ⟨hphase, hs, hany⟩ := of_decide_eq_true hrun
  obtain ⟨u, hu, hentry⟩ := List.any_eq_true.mp hany
  have hu : u ∈ d.engine.committed := Array.mem_toList_iff.mp hu
  obtain ⟨log, hdiary⟩ := hnew.after_call hd
  have hfirst := (hnew.compiles_at_threshold rfl (by decide) rfl).1 ⟨0, 3⟩ [1] patientFrame hinstr
    (by decide +kernel) 40 false
  have hlast := hdiary.compiles_at_threshold rfl (by decide) hs
  refine ⟨fun io => ⟨_, (hfirst io patientKey rfl).1 (by decide)⟩, _, _, _, u, hdiary, hu,
    fun io => ?_, hlast.2.1 patientKey⟩
  exact ⟨_, ((hlast.1 ⟨0, 3⟩ [1] patientFrame hinstr hphase 40 false io patientKey rfl).2.2 u hu
    (of_decide_eq_true hentry)).2⟩

end Diary

end Worker

end HotPath
