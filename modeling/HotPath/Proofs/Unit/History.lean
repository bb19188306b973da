/-
  HotPath.Proofs.Unit.History

  A promotion site against the history of its updates. As long as the updates name no
  more values than the limit, the site is a table in which the last writer wins: it
  finds for a value and a taint the unit that was installed last, and has one entry
  for each pair (`SiteUnits.Reflects`). The first value too many turns it generic, and
  it never comes back.

  An update is one more line of the history (`SiteUnits.Follows.update`), so what holds
  of one holds of any number of them (`SiteUnits.follows_updates`).
-/
import HotPath.Proofs.Unit.Site
import Mathlib.Data.Finset.Card

namespace HotPath

/-- What a unit is installed for. -/
def ValueUnit.key (e : ValueUnit) : Value × Nat := (e.value, e.taint)

theorem ValueUnit.isFor_iff_key {e : ValueUnit} {v : Value} {taint : Nat} :
    e.isFor v taint = true ↔ e.key = (v, taint) := by
  rw [isFor_iff, key, Prod.mk.injEq]

namespace SiteUnits

-- ============================================================================
-- Histories
-- ============================================================================

/-- Makes updates one after the other, under one limit, and says for each of them
whether there was room. -/
def updates (limit : Nat) (s : SiteUnits) : List ValueUnit → SiteUnits × List Bool
  | [] => (s, [])
  | new :: rest =>
    let (s, room) := s.update new limit
    let (s, rooms) := updates limit s rest
    (s, room :: rooms)

/-- The values that updates are about. -/
def valuesOf (us : List ValueUnit) : Finset Value := (us.map ValueUnit.value).toFinset

/-- The pairs of a value and a taint that updates are about. -/
def keysOf (us : List ValueUnit) : Finset (Value × Nat) := (us.map ValueUnit.key).toFinset

/-- The unit of the last update for a value under a taint. -/
def latest? (us : List ValueUnit) (v : Value) (taint : Nat) : Option CodeUnit :=
  (us.reverse.find? (fun e => e.isFor v taint)).map ValueUnit.unit

theorem mem_valuesOf {us : List ValueUnit} {v : Value} :
    v ∈ valuesOf us ↔ ∃ e ∈ us, e.value = v := by
  rw [valuesOf, List.mem_toFinset, List.mem_map]

theorem valuesOf_append (us : List ValueUnit) (new : ValueUnit) :
    valuesOf (us ++ [new]) = insert new.value (valuesOf us) := by
  ext v
  simp [mem_valuesOf, eq_comm, or_comm]

theorem latest?_append (us : List ValueUnit) (new : ValueUnit) (v : Value) (taint : Nat) :
    latest? (us ++ [new]) v taint =
      if new.isFor v taint then some new.unit else latest? us v taint := by
  unfold latest?
  rw [List.reverse_append, List.reverse_singleton, List.singleton_append, List.find?_cons]
  cases new.isFor v taint <;> rfl

/-- One more update stays within the limit if its value is there, or if there are fewer. -/
theorem card_valuesOf_append_le {us : List ValueUnit} {new : ValueUnit} {limit : Nat}
    (h : (valuesOf us).card ≤ limit) :
    (valuesOf (us ++ [new])).card ≤ limit ↔
      new.value ∈ valuesOf us ∨ (valuesOf us).card < limit := by
  rw [valuesOf_append]
  by_cases hmem : new.value ∈ valuesOf us
  · simp [hmem, Finset.insert_eq_of_mem hmem, h]
  · rw [Finset.card_insert_of_notMem hmem]
    simp only [hmem, false_or]
    omega

theorem card_valuesOf_le_append (us : List ValueUnit) (new : ValueUnit) :
    (valuesOf us).card ≤ (valuesOf (us ++ [new])).card := by
  rw [valuesOf_append]
  exact Finset.card_le_card (Finset.subset_insert _ _)

theorem card_valuesOf_take_le (us : List ValueUnit) {j k : Nat} (h : j ≤ k) :
    (valuesOf (us.take j)).card ≤ (valuesOf (us.take k)).card := by
  refine Finset.card_le_card (fun v hv => ?_)
  obtain ⟨e, he, hev⟩ := mem_valuesOf.mp hv
  exact mem_valuesOf.mpr ⟨e, (List.take_subset_take_left us h) he, hev⟩

-- ============================================================================
-- Entries
-- ============================================================================

/-- A replaced entry keeps what it is for. -/
theorem map_key_replace (new : ValueUnit) (es : List ValueUnit) :
    (replace new es).map ValueUnit.key = es.map ValueUnit.key := by
  induction es with
  | nil => rfl
  | cons e es ih =>
    rw [replace]
    split
    · rfl
    · rw [List.map_cons, List.map_cons, ih]

/-- The entries of a site are those of a table: one for each pair that was updated. -/
structure Lists (us : List ValueUnit) (s : SiteUnits) : Prop where
  nodup : (s.entries.map ValueUnit.key).Nodup
  mem_iff : ∀ k, k ∈ s.entries.map ValueUnit.key ↔ k ∈ us.map ValueUnit.key

variable {us : List ValueUnit} {s : SiteUnits} {new : ValueUnit} {limit : Nat}

theorem lists_uninitialized : Lists [] .uninitialized := ⟨List.nodup_nil, fun _ => Iff.rfl⟩

/-- An update that finds room lists one pair more, unless it is there. -/
theorem Lists.update (h : Lists us s) (hroom : (s.update new limit).2 = true) :
    Lists (us ++ [new]) (s.update new limit).1 := by
  have hmem : ∀ k, k ∈ (us ++ [new]).map ValueUnit.key ↔
      k ∈ s.entries.map ValueUnit.key ∨ k = new.key := by
    intro k
    rw [List.map_append, List.mem_append, ← h.mem_iff, List.map_singleton, List.mem_singleton]
  have hentries := entries_update hroom
  by_cases hany : s.entries.any (fun e => e.isFor new.value new.taint) = true
  · rw [if_pos hany] at hentries
    obtain ⟨e, he, hfor⟩ := List.any_eq_true.mp hany
    have hthere : new.key ∈ s.entries.map ValueUnit.key :=
      List.mem_map.mpr ⟨e, he, ValueUnit.isFor_iff_key.mp hfor⟩
    refine ⟨?_, fun k => ?_⟩
    · rw [hentries, map_key_replace]
      exact h.nodup
    · rw [hentries, map_key_replace, hmem]
      constructor
      · exact Or.inl
      · rintro (hk | rfl)
        · exact hk
        · exact hthere
  · rw [if_neg hany] at hentries
    have hnew : new.key ∉ s.entries.map ValueUnit.key := by
      intro hk
      obtain ⟨e, he, hkey⟩ := List.mem_map.mp hk
      exact hany (List.any_eq_true.mpr ⟨e, he, ValueUnit.isFor_iff_key.mpr hkey⟩)
    refine ⟨?_, fun k => ?_⟩
    · rw [hentries, List.map_append, List.map_singleton]
      exact h.nodup.append (List.nodup_singleton _) (List.disjoint_singleton.mpr hnew)
    · rw [hentries, hmem, List.map_append, List.mem_append, List.map_singleton, List.mem_singleton]

theorem Lists.size_eq (h : Lists us s) : s.size = (keysOf us).card := by
  have hkeys : keysOf us = (s.entries.map ValueUnit.key).toFinset := by
    ext k
    rw [keysOf, List.mem_toFinset, List.mem_toFinset, h.mem_iff]
  rw [hkeys, List.toFinset_card_of_nodup h.nodup, List.length_map]
  rfl

theorem Lists.exists_value_iff (h : Lists us s) (v : Value) :
    (∃ e ∈ s.entries, e.value = v) ↔ v ∈ valuesOf us := by
  -- a value is there with some taint
  have hkeys : ∀ es : List ValueUnit,
      (∃ e ∈ es, e.value = v) ↔ ∃ taint, (v, taint) ∈ es.map ValueUnit.key := by
    intro es
    constructor
    · rintro ⟨e, he, rfl⟩
      exact ⟨e.taint, List.mem_map.mpr ⟨e, he, rfl⟩⟩
    · rintro ⟨taint, hk⟩
      obtain ⟨e, he, hkey⟩ := List.mem_map.mp hk
      exact ⟨e, he, (Prod.mk.inj hkey).1⟩
  rw [mem_valuesOf, hkeys, hkeys]
  exact exists_congr (fun taint => h.mem_iff (v, taint))

theorem Lists.contains_iff (h : Lists us s) (v : Value) :
    s.contains v = true ↔ v ∈ valuesOf us :=
  SiteUnits.contains_iff.trans (h.exists_value_iff v)

theorem Lists.valueCount_eq (h : Lists us s) : s.valueCount = (valuesOf us).card := by
  have hvalues : valuesOf us = (distinct s.entries).toFinset := by
    ext v
    rw [List.mem_toFinset, mem_distinct, h.exists_value_iff]
  rw [hvalues, List.toFinset_card_of_nodup (nodup_distinct _)]
  rfl

-- ============================================================================
-- Sites
-- ============================================================================

/-- A site says what the history of its updates says. -/
structure Reflects (us : List ValueUnit) (s : SiteUnits) : Prop where
  /-- The last writer wins. -/
  lookup_eq : ∀ v taint, s.lookup v taint = latest? us v taint
  contains_iff : ∀ v, s.contains v = true ↔ v ∈ valuesOf us
  valueCount_eq : s.valueCount = (valuesOf us).card
  size_eq : s.size = (keysOf us).card
  not_megamorphic : s.isMegamorphic = false

/-- A generic site finds nothing for single values. -/
theorem lookup_of_isMegamorphic (h : s.isMegamorphic = true) (v : Value) (taint : Nat) :
    s.lookup v taint = none := by
  cases s with
  | megamorphic u => rfl
  | _ => cases h

/-- A site after a history of updates: a table as long as there are not too many values,
and generic from then on. -/
structure Follows (limit : Nat) (us : List ValueUnit) (s : SiteUnits) : Prop where
  lists : (valuesOf us).card ≤ limit → Lists us s
  lookup_eq : (valuesOf us).card ≤ limit → ∀ v taint, s.lookup v taint = latest? us v taint
  isMegamorphic_eq : s.isMegamorphic = decide (limit < (valuesOf us).card)

theorem follows_uninitialized (limit : Nat) : Follows limit [] .uninitialized :=
  ⟨fun _ => lists_uninitialized, fun _ _ _ => rfl, rfl⟩

theorem Follows.reflects (h : Follows limit us s) (hfew : (valuesOf us).card ≤ limit) :
    Reflects us s where
  lookup_eq := h.lookup_eq hfew
  contains_iff := (h.lists hfew).contains_iff
  valueCount_eq := (h.lists hfew).valueCount_eq
  size_eq := (h.lists hfew).size_eq
  not_megamorphic := by
    rw [h.isMegamorphic_eq, decide_eq_false_iff_not]
    omega

/-- There is room for an update as long as there are not too many values with it. -/
theorem Follows.update_snd (h : Follows limit us s) (hlimit : 0 < limit) (new : ValueUnit) :
    (s.update new limit).2 = decide ((valuesOf (us ++ [new])).card ≤ limit) := by
  rw [SiteUnits.update_snd hlimit, Bool.eq_iff_iff, decide_eq_true_iff, h.isMegamorphic_eq]
  by_cases hfew : (valuesOf us).card ≤ limit
  · have hlists := h.lists hfew
    rw [card_valuesOf_append_le hfew]
    simp [hlists.contains_iff, hlists.valueCount_eq, Nat.not_lt.mpr hfew]
  · have hle := card_valuesOf_le_append us new
    simp only [Nat.lt_of_not_le hfew, decide_true, Bool.not_true, Bool.false_and,
      Bool.false_eq_true, false_iff]
    omega

/-- One update is one more line of the history. -/
theorem Follows.update (h : Follows limit us s) (hlimit : 0 < limit) (new : ValueUnit) :
    Follows limit (us ++ [new]) (s.update new limit).1 := by
  have hroom := h.update_snd hlimit new
  have hle := card_valuesOf_le_append us new
  refine ⟨fun hfew => ?_, fun hfew v taint => ?_, ?_⟩
  · rw [decide_eq_true hfew] at hroom
    exact (h.lists (Nat.le_trans hle hfew)).update hroom
  · rw [decide_eq_true hfew] at hroom
    rw [lookup_update hroom, latest?_append, h.lookup_eq (Nat.le_trans hle hfew)]
  · rw [isMegamorphic_update, hroom, Bool.eq_iff_iff]
    simp

/-- So are any number of them, and each is told whether there was room. -/
theorem follows_updates (h : Follows limit us s) (hlimit : 0 < limit) (rest : List ValueUnit) :
    Follows limit (us ++ rest) (updates limit s rest).1 ∧
      (updates limit s rest).2 = (List.range rest.length).map (fun k =>
        decide ((valuesOf (us ++ rest.take (k + 1))).card ≤ limit)) := by
  -- on the updates that are left; those that were made are in the history
  induction rest generalizing us s with
  | nil =>
    rw [List.append_nil]
    exact ⟨h, rfl⟩
  | cons new rest ih =>
    have hstep := ih (h.update hlimit new)
    rw [List.append_assoc, List.singleton_append] at hstep
    refine ⟨hstep.1, ?_⟩
    show (s.update new limit).2 :: (updates limit (s.update new limit).1 rest).2 = _
    rw [hstep.2, h.update_snd hlimit new, List.length_cons, List.range_succ_eq_map, List.map_cons,
      List.map_map]
    refine congrArg₂ List.cons rfl (List.map_congr_left (fun k _ => ?_))
    rw [Function.comp_apply, List.take_succ_cons, List.append_assoc, List.singleton_append]

/-- A promotion site is a bounded table in which the last writer wins. Whatever updates
it gets under one limit, each is told whether the values so far are within the limit,
and once there is no room there never is again. As long as the values are within the
limit, the site reflects what was installed; with more of them it is generic and finds
nothing. -/
theorem updates_refine_table (hlimit : 1 ≤ limit) (us : List ValueUnit) :
    (updates limit .uninitialized us).2.length = us.length ∧
    (∀ k < us.length, (updates limit .uninitialized us).2[k]? =
      some (decide ((valuesOf (us.take (k + 1))).card ≤ limit))) ∧
    (∀ j k, j ≤ k → k < us.length → (updates limit .uninitialized us).2[j]? = some false →
      (updates limit .uninitialized us).2[k]? = some false) ∧
    ((valuesOf us).card ≤ limit → Reflects us (updates limit .uninitialized us).1) ∧
    (limit < (valuesOf us).card → (updates limit .uninitialized us).1.isMegamorphic = true ∧
      ∀ v taint, (updates limit .uninitialized us).1.lookup v taint = none) := by
  obtain ⟨hfollows, hrooms⟩ := follows_updates (follows_uninitialized limit) hlimit us
  rw [List.nil_append] at hfollows
  have hroom : ∀ k < us.length, (updates limit .uninitialized us).2[k]? =
      some (decide ((valuesOf (us.take (k + 1))).card ≤ limit)) := by
    intro k hk
    rw [hrooms, List.getElem?_map, List.getElem?_range hk]
    rfl
  refine ⟨?_, hroom, fun j k hjk hk hj => ?_, hfollows.reflects, fun hmany => ?_⟩
  · rw [hrooms, List.length_map, List.length_range]
  · rw [hroom j (by omega), Option.some.injEq, decide_eq_false_iff_not] at hj
    rw [hroom k hk, Option.some.injEq, decide_eq_false_iff_not]
    have hle := card_valuesOf_take_le us (Nat.add_le_add_right hjk 1)
    omega
  · have hmega : (updates limit .uninitialized us).1.isMegamorphic = true := by
      rw [hfollows.isMegamorphic_eq]
      exact decide_eq_true hmany
    exact ⟨hmega, lookup_of_isMegamorphic hmega⟩

/-- A unit with a number and nothing to run. -/
def numbered (id : Nat) : CodeUnit :=
  { id, entry := .generic ⟨0, 0⟩, trace := ⟨⟨0, 0⟩, [], 0, 0⟩, opCount := 0, entryTaint := 0 }

/-- Updates of one site: a value under two taints, a second value, the first one again,
then a third value, and the first one once more. -/
def crowding : List ValueUnit :=
  [⟨.int 7, 0, numbered 1⟩, ⟨.int 7, 4, numbered 2⟩, ⟨.int 3, 0, numbered 3⟩,
    ⟨.int 7, 0, numbered 4⟩, ⟨.int 9, 0, numbered 5⟩, ⟨.int 7, 0, numbered 6⟩]

/-- Two values fit under a limit of two, with three units; the third is one too many. -/
theorem updates_refine_table_crowding :
    (updates 2 .uninitialized crowding).2 = [true, true, true, true, false, false] ∧
    Reflects (crowding.take 4) (updates 2 .uninitialized (crowding.take 4)).1 ∧
    (keysOf (crowding.take 4)).card = 3 ∧
    (latest? (crowding.take 4) (.int 7) 0).map CodeUnit.id = some 4 ∧
    (updates 2 .uninitialized crowding).1.isMegamorphic = true ∧
    ∀ v taint, (updates 2 .uninitialized crowding).1.lookup v taint = none := by
  have hlimit : 1 ≤ 2 := by decide
  have hfew := (updates_refine_table hlimit (crowding.take 4)).2.2.2.1
  have hmany := (updates_refine_table hlimit crowding).2.2.2.2
  exact ⟨by decide, hfew (by decide), by decide, by decide, hmany (by decide)⟩

end SiteUnits

end HotPath
