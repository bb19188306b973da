/-
  HotPath.Proofs.Unit.Site

  Updates of a promotion site. There is room for a unit where its value has one
  already or there are fewer values than the limit (`SiteUnits.update_snd`); an update
  that finds room gives the value and taint their new unit and changes no other
  (`SiteUnits.lookup_update`), and one that does not makes the site generic.
-/
import HotPath.Proofs.Unit.Sound
import Mathlib.Data.List.Nodup

namespace HotPath

theorem ValueUnit.isFor_iff {e : ValueUnit} {v : Value} {taint : Nat} :
    e.isFor v taint = true ↔ e.value = v ∧ e.taint = taint := by
  unfold isFor
  rw [Bool.and_eq_true, beq_iff_eq, beq_iff_eq]

namespace SiteUnits

-- ============================================================================
-- Values
-- ============================================================================

theorem mem_distinct {es : List ValueUnit} {v : Value} :
    v ∈ distinct es ↔ ∃ e ∈ es, e.value = v := by
  induction es with
  | nil => simp [distinct]
  | cons e es ih =>
    rw [distinct, List.mem_insert_iff, ih]
    simp only [List.mem_cons, exists_eq_or_imp]
    exact or_congr_left eq_comm

theorem nodup_distinct (es : List ValueUnit) : (distinct es).Nodup := by
  induction es with
  | nil => exact List.nodup_nil
  | cons e es ih => exact ih.insert

theorem contains_iff {s : SiteUnits} {v : Value} :
    s.contains v = true ↔ ∃ e ∈ s.entries, e.value = v := by
  unfold contains
  rw [List.any_eq_true]
  simp only [beq_iff_eq]

-- ============================================================================
-- Updates
-- ============================================================================

variable {s : SiteUnits} {new : ValueUnit} {limit : Nat}

theorem isMegamorphic_update (s : SiteUnits) (new : ValueUnit) (limit : Nat) :
    (s.update new limit).1.isMegamorphic = !(s.update new limit).2 := by
  cases s with
  | uninitialized => rfl
  | monomorphic old =>
    rw [update]
    split
    · rfl
    · split <;> rfl
  | polymorphic es =>
    rw [update]
    split
    · rfl
    · split <;> rfl
  | megamorphic u => rfl

/-- An entry for the same value and taint is one for the value. -/
theorem contains_of_any (h : s.entries.any (fun e => e.isFor new.value new.taint) = true) :
    s.contains new.value = true := by
  obtain ⟨e, he, hfor⟩ := List.any_eq_true.mp h
  exact contains_iff.mpr ⟨e, he, (ValueUnit.isFor_iff.mp hfor).1⟩

/-- There is room for a value that has a unit, or while the values are below the
limit. -/
theorem update_snd (hlimit : 0 < limit) (s : SiteUnits) (new : ValueUnit) :
    (s.update new limit).2 =
      (!s.isMegamorphic && (s.contains new.value || s.hasRoom limit)) := by
  cases s with
  | uninitialized => simp [update, isMegamorphic, hasRoom, size, entries, hlimit]
  | monomorphic old =>
    have hroom : (monomorphic old).hasRoom limit = decide (1 < limit) := by
      rw [Bool.eq_iff_iff, hasRoom_iff, decide_eq_true_iff]
      rfl
    have hcontains : (monomorphic old).contains new.value = decide (old.value = new.value) := by
      rw [Bool.eq_iff_iff, contains_iff, decide_eq_true_iff]
      simp [entries]
    rw [update, hroom, hcontains]
    split
    · next hfor => simp [isMegamorphic, (ValueUnit.isFor_iff.mp hfor).1]
    · by_cases hv : old.value = new.value
      · simp [isMegamorphic, hv]
      · by_cases htwo : limit < 2
        · simp [isMegamorphic, hv, htwo]
          omega
        · simp [isMegamorphic, hv, htwo]
          omega
  | polymorphic es =>
    rw [update]
    split
    · next hfor =>
      have hcontains : (polymorphic es).contains new.value = true := contains_of_any hfor
      rw [hcontains]
      rfl
    · cases (polymorphic es).contains new.value <;> cases (polymorphic es).hasRoom limit <;> rfl
  | megamorphic u => rfl

/-- An update that finds room replaces an entry, or adds one. -/
theorem entries_update (h : (s.update new limit).2 = true) :
    (s.update new limit).1.entries =
      if s.entries.any (fun e => e.isFor new.value new.taint) then replace new s.entries
      else s.entries ++ [new] := by
  cases s with
  | uninitialized => rfl
  | monomorphic old =>
    rw [update] at h ⊢
    by_cases hfor : old.isFor new.value new.taint = true
    · rw [if_pos hfor]
      simp [entries, hfor, replace]
    · rw [if_neg hfor] at h ⊢
      by_cases hfull : old.value ≠ new.value ∧ limit < 2
      · rw [if_pos hfull] at h
        cases h
      · rw [if_neg hfull]
        simp [entries, hfor]
  | polymorphic es =>
    rw [update] at h ⊢
    by_cases hfor : es.any (fun e => e.isFor new.value new.taint) = true
    · rw [if_pos hfor]
      exact (if_pos hfor).symm
    · rw [if_neg hfor] at h ⊢
      split at h
      · cases h
      · next hroom =>
        rw [if_neg hroom]
        exact (if_neg hfor).symm
  | megamorphic u => cases h

theorem find?_replace (v : Value) (taint : Nat) {es : List ValueUnit}
    (h : es.any (fun e => e.isFor new.value new.taint) = true) :
    (replace new es).find? (fun e => e.isFor v taint) =
      if new.isFor v taint then some new else es.find? (fun e => e.isFor v taint) := by
  induction es with
  | nil => cases h
  | cons e es ih =>
    rw [replace]
    by_cases hfor : e.isFor new.value new.taint = true
    · obtain ⟨hv, ht⟩ := ValueUnit.isFor_iff.mp hfor
      have hsame : e.isFor v taint = new.isFor v taint := by
        unfold ValueUnit.isFor
        rw [hv, ht]
      rw [if_pos hfor, eq_of_isFor hfor, List.find?_cons, List.find?_cons, hsame]
      cases new.isFor v taint <;> rfl
    · rw [if_neg hfor, List.find?_cons, List.find?_cons]
      rw [List.any_cons, Bool.or_eq_true] at h
      rw [ih (h.resolve_left hfor)]
      cases hev : e.isFor v taint with
      | false => rfl
      | true =>
        have hnew : new.isFor v taint = false := by
          refine Bool.eq_false_iff.mpr (fun hnew => hfor ?_)
          obtain ⟨rfl, rfl⟩ := ValueUnit.isFor_iff.mp hnew
          exact hev
        rw [hnew]
        rfl

/-- An update that finds room gives the value and taint their new unit. -/
theorem lookup_update (h : (s.update new limit).2 = true) (v : Value) (taint : Nat) :
    (s.update new limit).1.lookup v taint =
      if new.isFor v taint then some new.unit else s.lookup v taint := by
  unfold lookup
  rw [entries_update h]
  split
  · next hany =>
    rw [find?_replace v taint hany]
    split <;> rfl
  · next hany =>
    rw [List.find?_append]
    by_cases hnew : new.isFor v taint = true
    · obtain ⟨rfl, rfl⟩ := ValueUnit.isFor_iff.mp hnew
      have hnone : s.entries.find? (fun e => e.isFor new.value new.taint) = none := by
        refine List.find?_eq_none.mpr (fun e he hfor => hany ?_)
        exact List.any_eq_true.mpr ⟨e, he, hfor⟩
      rw [hnone, if_pos hnew]
      simp [hnew]
    · rw [if_neg hnew]
      simp [hnew]

end SiteUnits

end HotPath
