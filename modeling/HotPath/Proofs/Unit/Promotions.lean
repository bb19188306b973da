/-
  HotPath.Proofs.Unit.Promotions

  What a store and the counters that go with it keep about promotion sites. At a site
  that is not generic, only values that the site has shown have units, and there are no
  more of these than the threshold (`UnitStore.Orderly`); so a value that was just noted
  finds room (`UnitStore.Orderly.hasRoom`). Counters have keys for no other values, so
  they are bounded as well, also after the site has turned generic (`Heat.Fits`).

  Nothing that happens to a store makes a generic site another, or forgets a value that
  a site has shown while it is not generic (`UnitStore.Grows`). So counters still fit a
  store after others have used it.
-/
import HotPath.Proofs.Unit.Site
import HotPath.Segment
import Mathlib.Data.List.Perm.Subperm

namespace HotPath

-- ============================================================================
-- Stores
-- ============================================================================

namespace UnitStore

/-- The records about promotion sites are in order. -/
structure Orderly (s : UnitStore) : Prop where
  shown_le : ∀ site, s.isGeneric site = false → (s.shown site).size ≤ s.threshold
  shown_of_entry : ∀ site, ∀ e ∈ (s.site site).entries, (s.shown site).contains e.value = true

/-- What a store has recorded is still recorded in another. -/
structure Grows (s s' : UnitStore) : Prop where
  threshold_eq : s'.threshold = s.threshold
  generic : ∀ site, s.isGeneric site = true → s'.isGeneric site = true
  shown : ∀ site v, s'.isGeneric site = false → (s.shown site).contains v = true →
    (s'.shown site).contains v = true

theorem entries_eq_nil {s : UnitStore} {site : Location} (h : s.isGeneric site = true) :
    (s.site site).entries = [] := by
  unfold isGeneric at h
  cases hs : s.site site with
  | megamorphic u => rfl
  | uninitialized | monomorphic e | polymorphic es =>
    rw [hs] at h
    cases h

variable {s s' s'' : UnitStore} {site loc : Location} {v : Value}

theorem site_insert (s : UnitStore) (loc : Location) (units : SiteUnits) (site : Location) :
    { s with sites := s.sites.insert loc units }.site site =
      if loc = site then units else s.site site := by
  unfold UnitStore.site
  rw [Table.get?_insert]
  split <;> rfl

namespace Grows

theorem refl (s : UnitStore) : s.Grows s := ⟨rfl, fun _ => id, fun _ _ _ => id⟩

theorem not_generic (h : s.Grows s') (hs : s'.isGeneric site = false) :
    s.isGeneric site = false :=
  Bool.eq_false_iff.mpr (fun hg => Bool.eq_false_iff.mp hs (h.generic site hg))

theorem trans (h : s.Grows s') (h' : s'.Grows s'') : s.Grows s'' where
  threshold_eq := h'.threshold_eq.trans h.threshold_eq
  generic site hg := h'.generic site (h.generic site hg)
  shown site v hg hv := h'.shown site v hg (h.shown site v (h'.not_generic hg) hv)

end Grows

/-- Nothing was done about promotion sites. -/
structure SameSites (s s' : UnitStore) : Prop where
  threshold_eq : s'.threshold = s.threshold
  sites_eq : s'.sites = s.sites
  observed_eq : s'.observed = s.observed

namespace SameSites

theorem site_eq (h : s.SameSites s') (loc : Location) : s'.site loc = s.site loc := by
  unfold site
  rw [h.sites_eq]

theorem isGeneric_eq (h : s.SameSites s') (loc : Location) : s'.isGeneric loc = s.isGeneric loc :=
  congrArg SiteUnits.isMegamorphic (h.site_eq loc)

theorem shown_eq (h : s.SameSites s') (loc : Location) : s'.shown loc = s.shown loc := by
  unfold shown
  rw [h.observed_eq]

theorem grows (h : s.SameSites s') : s.Grows s' where
  threshold_eq := h.threshold_eq
  generic site hg := (h.isGeneric_eq site).trans hg
  shown site v _ hv := by
    rw [h.shown_eq]
    exact hv

theorem orderly (h : s.SameSites s') (hs : s.Orderly) : s'.Orderly where
  shown_le site hg := by
    rw [h.shown_eq, h.threshold_eq]
    exact hs.shown_le site (h.isGeneric_eq site ▸ hg)
  shown_of_entry site e he := by
    rw [h.shown_eq]
    exact hs.shown_of_entry site e (h.site_eq site ▸ he)

end SameSites

-- ============================================================================
-- What happens to stores
-- ============================================================================

theorem orderly_ofThreshold (n : Nat) : (ofThreshold n).Orderly where
  shown_le site _ := Nat.zero_le _
  shown_of_entry site e he := by cases he

theorem isGeneric_insert {units : SiteUnits} :
    { s with sites := s.sites.insert loc units }.isGeneric site =
      if loc = site then units.isMegamorphic else s.isGeneric site := by
  unfold isGeneric
  rw [site_insert]
  split <;> rfl

theorem installPromotion_eq (s : UnitStore) (loc : Location) (new : ValueUnit) :
    s.installPromotion loc new = (((s.site loc).update new s.threshold).2,
      { s with sites := s.sites.insert loc ((s.site loc).update new s.threshold).1 }) := rfl

/-- A decision leaves the store alone, or turns the site generic. -/
theorem decide_snd (s : UnitStore) (threshold : Nat) (site : Location) (v : Value) (count : Nat)
    (f : Frame) :
    (s.decide threshold site v count f).2 = s ∨
      (s.decide threshold site v count f).2 = (s.makeGeneric site).2 := by
  unfold UnitStore.decide
  split
  · split <;> exact Or.inl rfl
  · split
    · exact Or.inl rfl
    · split
      · exact Or.inl rfl
      · split
        · exact Or.inl rfl
        · exact Or.inr rfl

/-- Noting a value changes what the site has shown, and may turn it generic. -/
theorem heatKey_snd (s : UnitStore) (loc : Location) (v : Value) : ∃ observed,
    (s.heatKey loc v).2 = { s with observed } ∨
      (s.heatKey loc v).2 = { (s.makeGeneric loc).2 with observed } := by
  show ∃ observed, (s.observePromotion loc v).2 = { s with observed } ∨
    (s.observePromotion loc v).2 = { (s.makeGeneric loc).2 with observed }
  unfold observePromotion
  split
  · exact ⟨s.observed, Or.inl rfl⟩
  · dsimp only
    split
    · exact ⟨_, Or.inl rfl⟩
    · exact ⟨_, Or.inr rfl⟩

namespace Orderly

variable (h : s.Orderly)

include h

/-- A site gets other units, for values that it has shown. -/
theorem insert {units : SiteUnits} (hg : s.isGeneric loc = true → units.isMegamorphic = true)
    (he : ∀ e ∈ units.entries, (s.shown loc).contains e.value = true) :
    Orderly { s with sites := s.sites.insert loc units } ∧
      s.Grows { s with sites := s.sites.insert loc units } := by
  have hgrows : s.Grows { s with sites := s.sites.insert loc units } := by
    refine ⟨rfl, fun site hsite => ?_, fun _ _ _ hv => hv⟩
    rw [isGeneric_insert]
    split
    · next heq => exact hg (heq ▸ hsite)
    · exact hsite
  refine ⟨⟨fun site hsite => h.shown_le site (hgrows.not_generic hsite), ?_⟩, hgrows⟩
  intro site e hmem
  rw [site_insert] at hmem
  split at hmem
  · next heq => exact heq ▸ he e hmem
  · exact h.shown_of_entry site e hmem

theorem installPromotion {new : ValueUnit} (hv : (s.shown loc).contains new.value = true) :
    (s.installPromotion loc new).2.Orderly ∧ s.Grows (s.installPromotion loc new).2 := by
  rw [installPromotion_eq]
  refine h.insert (fun hg => ?_) (fun e he => ?_)
  · rw [SiteUnits.isMegamorphic_update, SiteUnits.update_snd s.threshold_pos]
    show (!(!s.isGeneric loc && _)) = true
    rw [hg]
    rfl
  · rcases SiteUnits.mem_entries_update he with he | rfl
    · exact h.shown_of_entry loc e he
    · exact hv

theorem makeGeneric (loc : Location) :
    (s.makeGeneric loc).2.Orderly ∧ s.Grows (s.makeGeneric loc).2 := by
  unfold UnitStore.makeGeneric
  split
  · exact ⟨h, .refl s⟩
  · exact h.insert (fun _ => rfl) (fun e he => by cases he)

theorem installGeneric (loc : Location) (u : CodeUnit) :
    (s.installGeneric loc u).2.Orderly ∧ s.Grows (s.installGeneric loc u).2 := by
  unfold UnitStore.installGeneric
  split
  · exact h.insert (fun _ => rfl) (fun e he => by cases he)
  · exact ⟨h, .refl s⟩

theorem decide (threshold : Nat) (site : Location) (v : Value) (count : Nat) (f : Frame) :
    (s.decide threshold site v count f).2.Orderly ∧
      s.Grows (s.decide threshold site v count f).2 := by
  rcases s.decide_snd threshold site v count f with heq | heq
  · rw [heq]
    exact ⟨h, .refl s⟩
  · rw [heq]
    exact h.makeGeneric site

end Orderly

-- ============================================================================
-- Noting a value
-- ============================================================================

theorem shown_insert (s : UnitStore) (loc : Location) (vs : KeySet Value) (site : Location) :
    { s with observed := s.observed.insert loc vs }.shown site =
      if loc = site then vs else s.shown site := by
  unfold shown
  rw [Table.get?_insert]
  split <;> rfl

theorem shown_erase (s : UnitStore) (loc : Location) {site : Location} (h : loc ≠ site) :
    { s with observed := s.observed.erase loc }.shown site = s.shown site := by
  unfold shown
  rw [Table.get?_erase, if_neg h]

theorem contains_addShown (h : (s.shown loc).contains v = true) (value : Value) :
    (s.addShown loc value).contains v = true := by
  unfold addShown
  dsimp only
  split
  · rw [KeySet.contains_add, h, Bool.or_true]
  · exact h

/-- The values of a generic site may be forgotten. -/
theorem Orderly.forget (h : s.Orderly) (hg : s.isGeneric loc = true) :
    Orderly { s with observed := s.observed.erase loc } ∧
      s.Grows { s with observed := s.observed.erase loc } := by
  have hne : ∀ {site}, s.isGeneric site = false → loc ≠ site := by
    rintro site hsite rfl
    exact Bool.eq_false_iff.mp hsite hg
  refine ⟨⟨fun site hsite => ?_, fun site e he => ?_⟩, rfl, fun _ => id, fun site v hsite hv => ?_⟩
  · rw [shown_erase s loc (hne hsite)]
    exact h.shown_le site hsite
  · have hsite : s.isGeneric site = false := by
      refine Bool.eq_false_iff.mpr (fun hsite => ?_)
      have hmem : e ∈ (s.site site).entries := he
      rw [entries_eq_nil hsite] at hmem
      cases hmem
    rw [shown_erase s loc (hne hsite)]
    exact h.shown_of_entry site e he
  · rw [shown_erase s loc (hne hsite)]
    exact hv

/-- What noting a value leaves. The value counts for itself only where the site is not
generic, and then the site has shown it. -/
structure Noted (s : UnitStore) (loc : Location) (v : Value) (k : HeatKey) (s' : UnitStore) :
    Prop where
  orderly : s'.Orderly
  grows : s.Grows s'
  generic : s'.isGeneric loc = true → k = .generic loc
  single : s'.isGeneric loc = false → k = .promotion loc v ∧ (s'.shown loc).contains v = true

theorem Orderly.noted (h : s.Orderly) (loc : Location) (v : Value) :
    s.Noted loc v (s.heatKey loc v).1 (s.heatKey loc v).2 := by
  unfold heatKey observePromotion
  by_cases hg : s.isGeneric loc = true
  · rw [if_pos hg]
    exact ⟨h, .refl s, fun _ => rfl, fun hn => absurd hg (Bool.eq_false_iff.mp hn)⟩
  rw [if_neg hg]
  dsimp only
  by_cases hle : (s.addShown loc v).size ≤ s.threshold
  · rw [if_pos hle]
    -- the site is still not generic, and has shown the value
    have hshown := shown_insert s loc (s.addShown loc v)
    have hadd : s.addShown loc v = (s.shown loc).add v :=
      if_pos (h.shown_le loc (Bool.eq_false_iff.mpr hg))
    have hgrows : s.Grows { s with observed := s.observed.insert loc (s.addShown loc v) } := by
      refine ⟨rfl, fun _ => id, fun site v' _ hv' => ?_⟩
      rw [hshown]
      split
      · next heq => exact contains_addShown (heq ▸ hv') v
      · exact hv'
    refine ⟨⟨fun site hsite => ?_, fun site e he => ?_⟩, hgrows, fun hgen => absurd hgen hg,
      fun _ => ⟨rfl, ?_⟩⟩
    · rw [hshown]
      split
      · exact hle
      · exact h.shown_le site hsite
    · rw [hshown]
      split
      · next heq => exact contains_addShown (h.shown_of_entry loc e (heq ▸ he)) v
      · exact h.shown_of_entry site e he
    · rw [hshown, if_pos rfl, hadd, KeySet.contains_add]
      simp
  · -- one value too many: the site turns generic, and its values are forgotten
    have hmake : (s.makeGeneric loc).2.observed = s.observed := by
      unfold UnitStore.makeGeneric
      rw [if_neg hg]
    obtain ⟨horderly, hgrows⟩ := h.makeGeneric loc
    obtain ⟨horderly', hgrows'⟩ := horderly.forget (s.isGeneric_makeGeneric loc)
    rw [hmake] at horderly' hgrows'
    rw [if_neg hle]
    exact ⟨horderly', hgrows.trans hgrows', fun _ => rfl,
      fun hn => absurd (s.isGeneric_makeGeneric loc) (Bool.eq_false_iff.mp hn)⟩

-- ============================================================================
-- Room
-- ============================================================================

/-- A value that a site has shown finds room, unless the site is generic. -/
theorem Orderly.hasRoom (h : s.Orderly) (hg : s.isGeneric loc = false)
    (hv : (s.shown loc).contains v = true) : s.hasRoom loc v = true := by
  have hmega : (s.site loc).isMegamorphic = false := hg
  unfold UnitStore.hasRoom
  dsimp only
  rw [hmega]
  by_cases hc : (s.site loc).contains v = true
  · rw [hc]
    rfl
  · -- the value comes on top of those that have units, and all of them were shown
    have hnew : v ∉ SiteUnits.distinct (s.site loc).entries := by
      rw [SiteUnits.mem_distinct]
      exact fun he => hc (SiteUnits.contains_iff.mpr he)
    have hnodup : (v :: SiteUnits.distinct (s.site loc).entries).Nodup :=
      List.nodup_cons.mpr ⟨hnew, SiteUnits.nodup_distinct _⟩
    have hsub : v :: SiteUnits.distinct (s.site loc).entries ⊆ (s.shown loc).keys := by
      intro x hx
      rw [Table.mem_keys]
      rcases List.mem_cons.mp hx with rfl | hx
      · exact hv
      · obtain ⟨e, he, rfl⟩ := SiteUnits.mem_distinct.mp hx
        exact h.shown_of_entry loc e he
    have hlength : (s.site loc).valueCount + 1 ≤ (s.shown loc).size :=
      (List.subperm_of_subset hnodup hsub).length_le
    have hroom : (s.site loc).hasRoom s.threshold = true := by
      rw [SiteUnits.hasRoom_iff]
      have := h.shown_le loc hg
      omega
    rw [hroom, Bool.or_true]
    rfl

/-- Where there is room, a unit is installed. -/
theorem installPromotion_of_hasRoom (new : ValueUnit) (h : s.hasRoom loc new.value = true) :
    (s.installPromotion loc new).1 = true := by
  rw [installPromotion_eq, SiteUnits.update_snd s.threshold_pos]
  exact h

/-- A site that has taken a unit is not generic. -/
theorem isGeneric_installPromotion {new : ValueUnit} (h : (s.installPromotion loc new).1 = true) :
    (s.installPromotion loc new).2.isGeneric loc = false := by
  have h : ((s.site loc).update new s.threshold).2 = true := h
  rw [installPromotion_eq, isGeneric_insert, if_pos rfl, SiteUnits.isMegamorphic_update, h]
  rfl

theorem lookupPromotion_installPromotion {new : ValueUnit}
    (h : (s.installPromotion loc new).1 = true) (site : Location) (v : Value) (taint : Nat) :
    (s.installPromotion loc new).2.lookupPromotion site v taint =
      if loc = site ∧ new.isFor v taint = true then some new.unit
      else s.lookupPromotion site v taint := by
  rw [installPromotion_eq] at h ⊢
  unfold lookupPromotion
  rw [site_insert]
  by_cases hloc : loc = site
  · subst hloc
    rw [if_pos rfl, SiteUnits.lookup_update h]
    simp only [true_and]
  · rw [if_neg hloc, if_neg (fun hand => hloc hand.1)]

end UnitStore

-- ============================================================================
-- Counters
-- ============================================================================

/-- The value that a key counts at a promotion site, if it counts one there. -/
def HeatKey.valueAt? (site : Location) : HeatKey → Option Value
  | .promotion loc v => if loc = site then some v else none
  | _ => none

theorem HeatKey.valueAt?_eq_some {k : HeatKey} {site : Location} {v : Value} :
    k.valueAt? site = some v ↔ k = .promotion site v := by
  unfold valueAt?
  split
  · next loc v' =>
    rw [HeatKey.promotion.injEq]
    split
    · next hloc => simp [hloc]
    · next hloc => simp [hloc]
  · next hk =>
    constructor
    · exact fun h => by cases h
    · exact fun h => absurd h (hk site v)

namespace Heat

/-- The values that are counted at a promotion site. -/
def promoted (h : Heat) (site : Location) : List Value :=
  h.counts.keys.filterMap (HeatKey.valueAt? site)

theorem mem_promoted {h : Heat} {site : Location} {v : Value} :
    v ∈ h.promoted site ↔ .promotion site v ∈ h.counts.keys := by
  unfold promoted
  rw [List.mem_filterMap]
  constructor
  · rintro ⟨k, hk, hv⟩
    exact HeatKey.valueAt?_eq_some.mp hv ▸ hk
  · exact fun hk => ⟨_, hk, HeatKey.valueAt?_eq_some.mpr rfl⟩

theorem nodup_promoted (h : Heat) (site : Location) : (h.promoted site).Nodup := by
  refine h.counts.nodup_keys.filterMap (fun k l v hk hl => ?_)
  rw [HeatKey.valueAt?_eq_some.mp hk, HeatKey.valueAt?_eq_some.mp hl]

/-- Observing a key brings in no other. -/
theorem keys_observe (h : Heat) (k : HeatKey) :
    (h.observe k).2.counts.keys = h.counts.keys ∨
      (h.observe k).2.counts.keys = k :: h.counts.keys := by
  have hbump : (h.bump k).counts.keys = h.counts.keys ∨
      (h.bump k).counts.keys = k :: h.counts.keys := by
    unfold bump Table.insert
    dsimp only
    split
    · exact Or.inl rfl
    · exact Or.inr rfl
  unfold observe
  split
  · exact hbump
  · split
    · exact Or.inl rfl
    · exact hbump

/-- The counters go with a store: at a site that is not generic only values that it has
shown are counted, and at no site are more counted than the threshold. -/
structure Fits (h : Heat) (s : UnitStore) : Prop where
  shown : ∀ site v, s.isGeneric site = false → v ∈ h.promoted site →
    (s.shown site).contains v = true
  few : ∀ site, (h.promoted site).length ≤ s.threshold

variable {h : Heat} {s s' : UnitStore}

theorem Fits.grows (hh : h.Fits s) (hs : s.Grows s') : h.Fits s' where
  shown site v hg hv := hs.shown site v hg (hh.shown site v (hs.not_generic hg) hv)
  few site := hs.threshold_eq ▸ hh.few site

/-- Counting a value at a site that has shown it and is not generic. -/
theorem Fits.observe (hh : h.Fits s) (hs : s.Orderly) {k : HeatKey}
    (hk : ∀ site v, k = .promotion site v →
      s.isGeneric site = false ∧ (s.shown site).contains v = true) : (h.observe k).2.Fits s := by
  -- a key for the site is an old one or the new one
  have hmem : ∀ site v, v ∈ (h.observe k).2.promoted site →
      v ∈ h.promoted site ∨ k = .promotion site v := by
    intro site v hv
    rw [mem_promoted] at hv ⊢
    rcases h.keys_observe k with heq | heq
    · rw [heq] at hv
      exact Or.inl hv
    · rw [heq, List.mem_cons] at hv
      rcases hv with hv | hv
      · exact Or.inr hv.symm
      · exact Or.inl hv
  have hshown : ∀ site v, s.isGeneric site = false → v ∈ (h.observe k).2.promoted site →
      (s.shown site).contains v = true := by
    intro site v hg hv
    rcases hmem site v hv with hv | hv
    · exact hh.shown site v hg hv
    · exact (hk site v hv).2
  refine ⟨hshown, fun site => ?_⟩
  have hnodup := (h.observe k).2.nodup_promoted site
  by_cases hg : s.isGeneric site = true
  · -- nothing new is counted for a single value at a generic site
    have hsub : (h.observe k).2.promoted site ⊆ h.promoted site := by
      intro v hv
      refine (hmem site v hv).resolve_right (fun hkv => ?_)
      exact Bool.eq_false_iff.mp (hk site v hkv).1 hg
    exact Nat.le_trans (List.subperm_of_subset hnodup hsub).length_le (hh.few site)
  · have hg : s.isGeneric site = false := Bool.eq_false_iff.mpr hg
    have hsub : (h.observe k).2.promoted site ⊆ (s.shown site).keys :=
      fun v hv => Table.mem_keys.mpr (hshown site v hg hv)
    exact Nat.le_trans (List.subperm_of_subset hnodup hsub).length_le (hs.shown_le site hg)

theorem Fits.congr {h' : Heat} (hh : h.Fits s) (heq : h'.counts = h.counts) : h'.Fits s := by
  have hpromoted : ∀ site, h'.promoted site = h.promoted site := by
    intro site
    unfold promoted
    rw [heq]
  exact ⟨fun site v hg hv => hh.shown site v hg (hpromoted site ▸ hv),
    fun site => hpromoted site ▸ hh.few site⟩

/-- What holds of counters and a store holds after a list of observations, if each of
them preserves it. -/
theorem recordAll_preserves {P : Heat → UnitStore → Prop}
    (hrecord : ∀ h s o, P h s → P (h.record s o).1 (h.record s o).2)
    (hP : P h s) (seen : Array Observation) : P (h.recordAll s seen).1 (h.recordAll s seen).2 := by
  have hall : ∀ (os : List Observation) (q : Heat × UnitStore), P q.1 q.2 →
      P (os.foldl (fun q o => q.1.record q.2 o) q).1
        (os.foldl (fun q o => q.1.record q.2 o) q).2 := by
    intro os
    induction os with
    | nil => exact fun q hq => hq
    | cons o os ih => exact fun q hq => ih _ (hrecord q.1 q.2 o hq)
  unfold recordAll
  rw [← Array.foldl_toList]
  exact hall seen.toList (h, s) hP

end Heat

namespace UnitStore

/-- A store stays in order and grows, and counters go with it. -/
structure Proceeds (s : UnitStore) (h' : Heat) (s' : UnitStore) : Prop where
  orderly : s'.Orderly
  grows : s.Grows s'
  fits : h'.Fits s'

variable {s : UnitStore} {h : Heat}

/-- A value is noted and counted. -/
theorem Orderly.proceeds_noted (hs : s.Orderly) (hh : h.Fits s) (loc : Location) (v : Value) :
    s.Proceeds (h.observe (s.heatKey loc v).1).2 (s.heatKey loc v).2 := by
  have hnoted := hs.noted loc v
  refine ⟨hnoted.orderly, hnoted.grows, (hh.grows hnoted.grows).observe hnoted.orderly ?_⟩
  intro site v' hk
  by_cases hg : (s.heatKey loc v).2.isGeneric loc = true
  · rw [hnoted.generic hg] at hk
    cases hk
  · have hg : (s.heatKey loc v).2.isGeneric loc = false := Bool.eq_false_iff.mpr hg
    obtain ⟨hk', hv⟩ := hnoted.single hg
    rw [hk'] at hk
    cases hk
    exact ⟨hg, hv⟩

/-- A segment is counted. -/
theorem Orderly.proceeds_recordSegment (hs : s.Orderly) (hh : h.Fits s)
    (seen : Array Observation) :
    s.Proceeds (h.recordSegment s seen).1 (h.recordSegment s seen).2 := by
  have hbegin : h.beginSegment.Fits s := by
    refine hh.congr ?_
    unfold Heat.beginSegment
    split <;> rfl
  have hall : s.Proceeds (h.beginSegment.recordAll s seen).1
      (h.beginSegment.recordAll s seen).2 := by
    refine Heat.recordAll_preserves (P := s.Proceeds) (fun h' s' o hp => ?_) ⟨hs, .refl s, hbegin⟩
      seen
    cases o with
    | promotion site v =>
      have hnoted := hp.orderly.proceeds_noted hp.fits site v
      exact ⟨hnoted.orderly, hp.grows.trans hnoted.grows, hnoted.fits⟩
    | split site taken =>
      refine ⟨hp.orderly, hp.grows, hp.fits.observe hp.orderly (fun site' v hk => ?_)⟩
      cases hk
  exact ⟨hall.orderly, hall.grows, hall.fits.congr rfl⟩

end UnitStore

end HotPath
