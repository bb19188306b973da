/-
  HotPath.Proofs.Unit.Counts

  What counters make of a segment. Every observation counts under one key
  (`UnitStore.heatKeys`), and counters observe these keys one after the other
  (`Heat.observeAll`).

  Where nothing is de-duplicated, a key counts as often as it comes
  (`Heat.count_observeAll`); inside of a segment of a de-duplicating counter it counts
  once, if it comes at all (`Heat.count_observeAll_open`). A promotion site may turn
  generic on the way, and the same value then counts under another key. So it is the
  site that counts exactly, with all its keys taken together
  (`Heat.shownAt_observeAll`).
-/
import HotPath.Segment
import Mathlib.Algebra.Order.BigOperators.Group.Finset

namespace HotPath

-- ============================================================================
-- Keys, one after the other
-- ============================================================================

namespace Heat

variable {h : Heat} {k l : HeatKey} {ks : List HeatKey}

/-- Outside of a segment everything counts. -/
theorem observe_eq (hclosed : h.segment = none) (k : HeatKey) :
    h.observe k = ((h.bump k).count k, h.bump k) := by
  unfold observe
  rw [hclosed]

theorem segment_observe (hclosed : h.segment = none) (k : HeatKey) :
    (h.observe k).2.segment = none := by
  rw [observe_eq hclosed]
  exact hclosed

theorem count_observe_of_ne (h : Heat) (hne : k ≠ l) : (h.observe k).2.count l = h.count l := by
  have hbump : (h.bump k).count l = h.count l := by rw [count_bump, if_neg hne]
  unfold observe
  split
  · exact hbump
  · split
    · rfl
    · exact hbump

/-- Observes keys, one after the other. -/
def observeAll (h : Heat) (ks : List HeatKey) : Heat := ks.foldl (fun h k => (h.observe k).2) h

theorem observeAll_cons (h : Heat) (k : HeatKey) (ks : List HeatKey) :
    h.observeAll (k :: ks) = (h.observe k).2.observeAll ks := rfl

theorem count_observeAll_of_notMem (hl : l ∉ ks) : (h.observeAll ks).count l = h.count l := by
  induction ks generalizing h with
  | nil => rfl
  | cons k ks ih =>
    rw [List.mem_cons, not_or] at hl
    rw [observeAll_cons, ih hl.2, count_observe_of_ne h (Ne.symm hl.1)]

/-- Outside of a segment, a key counts as often as it comes. -/
theorem count_observeAll (hclosed : h.segment = none)
    (hbelow : (h.observeAll ks).count l < Word.max) :
    (h.observeAll ks).count l = h.count l + ks.count l := by
  induction ks generalizing h with
  | nil => rfl
  | cons k ks ih =>
    rw [observeAll_cons] at hbelow ⊢
    have hrest := ih (segment_observe hclosed k) hbelow
    rw [hrest] at hbelow ⊢
    by_cases hkl : k = l
    · subst hkl
      rw [observe_eq hclosed, count_bump, if_pos rfl] at hbelow ⊢
      rw [List.count_cons_self]
      omega
    · rw [count_observe_of_ne h hkl, List.count_cons_of_ne hkl]

/-- Inside of a segment, a key that was not seen before counts once. -/
theorem count_observeAll_open {seen : KeySet HeatKey} (hopen : h.segment = some seen)
    (hbelow : (h.observeAll ks).count l < Word.max) :
    (h.observeAll ks).count l =
      h.count l + if seen.contains l = false ∧ l ∈ ks then 1 else 0 := by
  induction ks generalizing h seen with
  | nil => simp [observeAll]
  | cons k ks ih =>
    rw [observeAll_cons] at hbelow ⊢
    cases hk : seen.contains k with
    | true =>
      have hsame : (h.observe k).2 = h := by
        unfold observe
        rw [hopen]
        exact congrArg Prod.snd (if_pos hk)
      rw [hsame] at hbelow ⊢
      rw [ih hopen hbelow]
      by_cases hkl : l = k
      · subst hkl
        simp [hk]
      · simp [hkl]
    | false =>
      have hnew : (h.observe k).2 = { h.bump k with segment := some (seen.add k) } := by
        unfold observe
        rw [hopen]
        exact congrArg Prod.snd (if_neg (by rw [hk]; exact Bool.false_ne_true))
      have hcount : (h.observe k).2.count l = (h.bump k).count l := by rw [hnew]; rfl
      have hopen' : (h.observe k).2.segment = some (seen.add k) := by rw [hnew]
      have hrest := ih hopen' hbelow
      rw [hrest, hcount, count_bump] at hbelow
      rw [hrest, hcount, count_bump, KeySet.contains_add]
      by_cases hkl : k = l
      · subst hkl
        rw [if_pos rfl] at hbelow ⊢
        simp [hk]
        omega
      · simp [hkl, Ne.symm hkl]

end Heat

-- ============================================================================
-- Promotion sites
-- ============================================================================

/-- Whether a key counts values at a promotion site, a single one or all of them. -/
def HeatKey.isAt (site : Location) : HeatKey → Bool
  | .promotion loc _ => loc = site
  | .generic loc => loc = site
  | .mergePoint _ => false
  | .split .. => false

namespace Heat

variable {h : Heat} {ks : List HeatKey} {site : Location}

/-- The counts of a promotion site, under all its keys together. -/
def shownAt (h : Heat) (site : Location) : Nat :=
  (h.counts.keys.filter (HeatKey.isAt site)).foldr (fun k n => h.count k + n) 0

theorem count_eq_zero {k : HeatKey} (hk : k ∉ h.counts.keys) : h.count k = 0 := by
  have hnone : h.counts.get? k = none := by
    rw [Table.mem_keys] at hk
    simpa [Table.contains] using hk
  unfold count
  rw [hnone]
  rfl

/-- Keys that were never counted do not matter. -/
theorem shownAt_eq_sum {s : Finset HeatKey} (hs : ∀ k ∈ h.counts.keys, k ∈ s) :
    h.shownAt site = ∑ k ∈ s with k.isAt site = true, h.count k := by
  have hsum : h.shownAt site = ((h.counts.keys.filter (HeatKey.isAt site)).map h.count).sum := by
    rw [shownAt, List.sum_eq_foldr, List.foldr_map]
  rw [hsum, ← List.sum_toFinset h.count (h.counts.nodup_keys.filter _), List.toFinset_filter]
  refine Finset.sum_subset (fun k hk => ?_) (fun k hk hkeys => ?_)
  · rw [Finset.mem_filter, List.mem_toFinset] at hk
    exact Finset.mem_filter.mpr ⟨hs k hk.1, hk.2⟩
  · refine count_eq_zero (fun hmem => hkeys ?_)
    rw [Finset.mem_filter, List.mem_toFinset]
    exact ⟨hmem, (Finset.mem_filter.mp hk).2⟩

/-- The occurrences of all keys of a site are the keys at the site. -/
theorem sum_count_eq_countP {s : Finset HeatKey} (hs : ∀ k ∈ ks, k ∈ s) :
    ∑ k ∈ s with k.isAt site = true, ks.count k = ks.countP (HeatKey.isAt site) := by
  have hcount : ∀ k ∈ s.filter (fun k => k.isAt site = true), ks.count k =
      (ks.filter (HeatKey.isAt site) : Multiset HeatKey).count k := by
    intro k hk
    rw [Multiset.coe_count, List.count_filter (Finset.mem_filter.mp hk).2]
  rw [Finset.sum_congr rfl hcount, Multiset.sum_count_eq_card, Multiset.coe_card,
    List.countP_eq_length_filter]
  intro k hk
  rw [Multiset.mem_coe, List.mem_filter] at hk
  exact Finset.mem_filter.mpr ⟨hs k hk.1, hk.2⟩

/-- Outside of a segment, a site counts as often as one of its keys comes. -/
theorem shownAt_observeAll (hclosed : h.segment = none)
    (hbelow : ∀ k, (h.observeAll ks).count k < Word.max) :
    (h.observeAll ks).shownAt site = h.shownAt site + ks.countP (HeatKey.isAt site) := by
  let s : Finset HeatKey := h.counts.keys.toFinset ∪ (h.observeAll ks).counts.keys.toFinset ∪
    ks.toFinset
  have hold : ∀ k ∈ h.counts.keys, k ∈ s := by
    intro k hk
    simp [s, hk]
  have hnew : ∀ k ∈ (h.observeAll ks).counts.keys, k ∈ s := by
    intro k hk
    simp [s, hk]
  have hkeys : ∀ k ∈ ks, k ∈ s := by
    intro k hk
    simp [s, hk]
  calc (h.observeAll ks).shownAt site
      = ∑ k ∈ s with k.isAt site = true, (h.observeAll ks).count k := shownAt_eq_sum hnew
    _ = ∑ k ∈ s with k.isAt site = true, (h.count k + ks.count k) :=
        Finset.sum_congr rfl (fun k _ => count_observeAll hclosed (hbelow k))
    _ = (∑ k ∈ s with k.isAt site = true, h.count k) +
          ∑ k ∈ s with k.isAt site = true, ks.count k := Finset.sum_add_distrib
    _ = h.shownAt site + ks.countP (HeatKey.isAt site) := by
        rw [← shownAt_eq_sum hold, sum_count_eq_countP hkeys]

end Heat

-- ============================================================================
-- Observations
-- ============================================================================

/-- Whether a value was seen at a promotion site. -/
def Observation.isAt (site : Location) : Observation → Bool
  | .promotion loc _ => loc = site
  | .split .. => false

/-- The keys under which an observation may count. -/
def Observation.CountsAs : Observation → HeatKey → Prop
  | .promotion site v, k => k = .promotion site v ∨ k = .generic site
  | .split site taken, k => k = .split site taken

namespace UnitStore

/-- The key of an observation, with what the store notes. -/
def keyOf (s : UnitStore) : Observation → HeatKey × UnitStore
  | .promotion site v => s.heatKey site v
  | .split site taken => (.split site taken, s)

theorem countsAs_keyOf (s : UnitStore) (o : Observation) : o.CountsAs (s.keyOf o).1 := by
  cases o with
  | split site taken => rfl
  | promotion site v =>
    show (s.heatKey site v).1 = _ ∨ (s.heatKey site v).1 = _
    unfold heatKey
    dsimp only
    split
    · exact Or.inr rfl
    · exact Or.inl rfl

/-- The keys of observations, in order. What the store notes about one of them may turn a
site generic for the next. -/
def heatKeys (s : UnitStore) : List Observation → List HeatKey
  | [] => []
  | o :: os => (s.keyOf o).1 :: heatKeys (s.keyOf o).2 os

theorem exists_of_mem_heatKeys {s : UnitStore} {os : List Observation} {k : HeatKey}
    (hk : k ∈ s.heatKeys os) : ∃ o ∈ os, o.CountsAs k := by
  induction os generalizing s with
  | nil => cases hk
  | cons o os ih =>
    rcases List.mem_cons.mp hk with rfl | hk
    · exact ⟨o, List.mem_cons_self, s.countsAs_keyOf o⟩
    · obtain ⟨o', ho', hcounts⟩ := ih hk
      exact ⟨o', List.mem_cons_of_mem o ho', hcounts⟩

/-- Keys of which an observation counts all or none occur as often as the observations
that count under them. -/
theorem countP_heatKeys {p : HeatKey → Bool} {q : Observation → Bool}
    (hpq : ∀ o k, o.CountsAs k → p k = q o) (s : UnitStore) (os : List Observation) :
    (s.heatKeys os).countP p = os.countP q := by
  induction os generalizing s with
  | nil => rfl
  | cons o os ih =>
    rw [heatKeys, List.countP_cons, List.countP_cons, ih, hpq o _ (s.countsAs_keyOf o)]

theorem count_split_heatKeys (s : UnitStore) (os : List Observation) (site : Location)
    (taken : Bool) :
    (s.heatKeys os).count (.split site taken) = os.count (.split site taken) := by
  refine countP_heatKeys (fun o k hk => ?_) s os
  cases o with
  | split site' taken' =>
    cases hk
    simp
  | promotion site' v => rcases hk with rfl | rfl <;> simp

theorem countP_isAt_heatKeys (s : UnitStore) (os : List Observation) (site : Location) :
    (s.heatKeys os).countP (HeatKey.isAt site) = os.countP (Observation.isAt site) := by
  refine countP_heatKeys (fun o k hk => ?_) s os
  cases o with
  | split site' taken' =>
    cases hk
    rfl
  | promotion site' v => rcases hk with rfl | rfl <;> rfl

end UnitStore

-- ============================================================================
-- Segments
-- ============================================================================

namespace Heat

variable {h : Heat}

/-- Counters as they come about: from empty ones, by observing keys and by opening and
closing segments. -/
inductive Made : Heat → Prop where
  | empty {h : Heat} (hempty : h.size = 0) (hclosed : h.segment = none) : Made h
  | observe {h : Heat} (hmade : Made h) (k : HeatKey) : Made (h.observe k).2
  | beginSegment {h : Heat} (hmade : Made h) : Made h.beginSegment
  | endSegment {h : Heat} (hmade : Made h) : Made h.endSegment

theorem dedup_observe (h : Heat) (k : HeatKey) : (h.observe k).2.dedup = h.dedup := by
  unfold observe
  split
  · rfl
  · split <;> rfl

theorem dedup_beginSegment (h : Heat) : h.beginSegment.dedup = h.dedup := by
  unfold beginSegment
  split <;> rfl

/-- Counters that do not de-duplicate never have an open segment. -/
theorem Made.closed (hmade : h.Made) (hdedup : h.dedup = false) : h.segment = none := by
  induction hmade with
  | empty _ hclosed => exact hclosed
  | observe _ k ih =>
    rw [dedup_observe] at hdedup
    exact segment_observe (ih hdedup) k
  | @beginSegment h _ ih =>
    rw [dedup_beginSegment] at hdedup
    have hsame : h.beginSegment = h := if_neg (by rw [hdedup]; exact Bool.false_ne_true)
    rw [hsame]
    exact ih hdedup
  | endSegment => rfl

theorem count_beginSegment (h : Heat) (k : HeatKey) : h.beginSegment.count k = h.count k := by
  unfold beginSegment
  split <;> rfl

theorem record_eq (h : Heat) (s : UnitStore) (o : Observation) :
    h.record s o = ((h.observe (s.keyOf o).1).2, (s.keyOf o).2) := by
  cases o with
  | promotion site v => rfl
  | split site taken => rfl

theorem recordAll_eq (h : Heat) (s : UnitStore) (seen : Array Observation) :
    (h.recordAll s seen).1 = h.observeAll (s.heatKeys seen.toList) := by
  have hall : ∀ (os : List Observation) (h : Heat) (s : UnitStore),
      (os.foldl (fun q o => q.1.record q.2 o) (h, s)).1 = h.observeAll (s.heatKeys os) := by
    intro os
    induction os with
    | nil => exact fun _ _ => rfl
    | cons o os ih =>
      intro h s
      rw [List.foldl_cons, record_eq]
      exact ih _ _
  unfold recordAll
  rw [← Array.foldl_toList]
  exact hall seen.toList h s

theorem recordSegment_eq (h : Heat) (s : UnitStore) (seen : Array Observation) :
    (h.recordSegment s seen).1 =
      (h.beginSegment.observeAll (s.heatKeys seen.toList)).endSegment := by
  rw [← recordAll_eq]
  rfl

theorem count_recordSegment_of_notCounted {s : UnitStore} {seen : Array Observation} {k : HeatKey}
    (hk : ∀ o ∈ seen.toList, ¬ o.CountsAs k) : (h.recordSegment s seen).1.count k = h.count k := by
  rw [recordSegment_eq]
  show (h.beginSegment.observeAll (s.heatKeys seen.toList)).count k = _
  rw [count_observeAll_of_notMem, count_beginSegment]
  intro hmem
  obtain ⟨o, ho, hcounts⟩ := UnitStore.exists_of_mem_heatKeys hmem
  exact hk o ho hcounts

/-- No count is at its limit. -/
def Unsaturated (h : Heat) : Prop := ∀ k, h.count k < Word.max

theorem unsaturated_of_keys (hkeys : ∀ k ∈ h.counts.keys, h.count k < Word.max) :
    h.Unsaturated := by
  intro k
  by_cases hk : k ∈ h.counts.keys
  · exact hkeys k hk
  · rw [count_eq_zero hk]
    decide

/-- What a segment that passed these things adds to counters. -/
structure Adds (passed : List Observation) (h h' : Heat) : Prop where
  /-- Without de-duplication, an arm counts as often as it was taken. -/
  split_count : h.dedup = false → h'.Unsaturated → ∀ site taken,
    h'.count (.split site taken) = h.count (.split site taken) + passed.count (.split site taken)
  /-- So does a promotion site, with all its keys together. -/
  shownAt_eq : h.dedup = false → h'.Unsaturated → ∀ site,
    h'.shownAt site = h.shownAt site + passed.countP (Observation.isAt site)
  /-- With de-duplication, an arm counts once. -/
  split_once : h.dedup = true → h'.Unsaturated → ∀ site taken,
    h'.count (.split site taken) =
      h.count (.split site taken) + if .split site taken ∈ passed then 1 else 0
  /-- Nothing else counts. -/
  count_eq : ∀ k, (∀ o ∈ passed, ¬ o.CountsAs k) → h'.count k = h.count k
  closed : h'.segment = none

theorem adds_recordSegment (hmade : h.Made) (s : UnitStore) (seen : Array Observation) :
    Adds seen.toList h (h.recordSegment s seen).1 := by
  have hcount : ∀ k, (h.recordSegment s seen).1.count k =
      (h.beginSegment.observeAll (s.heatKeys seen.toList)).count k := by
    intro k
    rw [recordSegment_eq]
    rfl
  have hplain : h.dedup = false → h.beginSegment = h ∧ h.segment = none := by
    intro hdedup
    exact ⟨if_neg (by rw [hdedup]; exact Bool.false_ne_true), hmade.closed hdedup⟩
  refine ⟨fun hdedup hbelow site taken => ?_, fun hdedup hbelow site => ?_,
    fun hdedup hbelow site taken => ?_, fun k hk => count_recordSegment_of_notCounted hk, ?_⟩
  · obtain ⟨hbegin, hclosed⟩ := hplain hdedup
    have hlt := hbelow (.split site taken)
    rw [hcount, hbegin] at hlt ⊢
    rw [count_observeAll hclosed hlt, UnitStore.count_split_heatKeys]
  · obtain ⟨hbegin, hclosed⟩ := hplain hdedup
    have hlt : ∀ k, (h.observeAll (s.heatKeys seen.toList)).count k < Word.max := by
      intro k
      have hlt := hbelow k
      rwa [hcount, hbegin] at hlt
    rw [recordSegment_eq, hbegin]
    show (h.observeAll (s.heatKeys seen.toList)).shownAt site = _
    rw [shownAt_observeAll hclosed hlt, UnitStore.countP_isAt_heatKeys]
  · have hopen : h.beginSegment.segment = some {} := by
      unfold beginSegment
      rw [if_pos hdedup]
    have hlt := hbelow (.split site taken)
    have hmem : .split site taken ∈ s.heatKeys seen.toList ↔ .split site taken ∈ seen.toList := by
      rw [← List.count_pos_iff, UnitStore.count_split_heatKeys, List.count_pos_iff]
    rw [hcount] at hlt ⊢
    rw [count_observeAll_open hopen hlt, count_beginSegment]
    simp only [hmem]
    simp [Table.contains]
  · rw [recordSegment_eq]
    rfl

end Heat

end HotPath
