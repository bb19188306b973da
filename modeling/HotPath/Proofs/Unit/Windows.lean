/-
  HotPath.Proofs.Unit.Windows

  Counters over any history of observations and segments. A segment is a window of the
  history: it is open if nothing has opened or closed one since (`Heat.OpenSince`), and in
  an open window of a de-duplicating counter a key counts once (`Heat.Suppressed`).

  `Heat.Follows` ties counters to the history behind them. Each event keeps it
  (`Heat.Follows.apply`), so that after any history a count is the number of observations
  that were not suppressed, up to the largest word (`Heat.counts_follow_history`).
-/
import HotPath.Proofs.Unit.Counts

namespace HotPath

namespace Heat

-- ============================================================================
-- Histories
-- ============================================================================

/-- What can happen to counters. -/
inductive Event where
  | observe (key : HeatKey)
  | beginSegment
  | endSegment
  deriving DecidableEq

/-- The key that is observed, if one is. -/
def Event.key? : Event → Option HeatKey
  | .observe k => some k
  | .beginSegment => none
  | .endSegment => none

/-- Lets one thing happen. -/
def apply (h : Heat) : Event → Heat
  | .observe k => (h.observe k).2
  | .beginSegment => h.beginSegment
  | .endSegment => h.endSegment

/-- Lets a history happen. -/
def replay (h : Heat) (history : List Event) : Heat := history.foldl apply h

/-- A history ends inside a segment, and this came since the segment was opened. -/
structure OpenSince (past window : List Event) : Prop where
  begins : .beginSegment :: window <:+ past
  noBegin : .beginSegment ∉ window
  noEnd : .endSegment ∉ window

/-- An observation of the key would not count: the counter de-duplicates, a segment is
open, and the key was observed since it was opened. -/
def Suppressed (dedup : Bool) (past : List Event) (k : HeatKey) : Prop :=
  dedup = true ∧ ∃ window, OpenSince past window ∧ .observe k ∈ window

instance (dedup : Bool) (past : List Event) (k : HeatKey) :
    Decidable (Suppressed dedup past k) :=
  decidable_of_iff (dedup = true ∧ ∃ window ∈ past.tails, (.beginSegment :: window <:+ past ∧
      .beginSegment ∉ window ∧ .endSegment ∉ window) ∧ .observe k ∈ window) <| by
    refine and_congr_right (fun _ => exists_congr (fun window => ⟨?_, ?_⟩))
    · rintro ⟨-, ⟨hs, hb, he⟩, hk⟩
      exact ⟨⟨hs, hb, he⟩, hk⟩
    · rintro ⟨⟨hs, hb, he⟩, hk⟩
      exact ⟨(List.mem_tails _ _).mpr ((List.suffix_cons _ _).trans hs), ⟨hs, hb, he⟩, hk⟩

/-- The number of observations of a key in a history that were not suppressed where they
were made. -/
def tally (dedup : Bool) (history : List Event) (k : HeatKey) : Nat :=
  (List.range history.length).countP (fun i =>
    history[i]? = some (.observe k) ∧ ¬ Suppressed dedup (history.take i) k)

-- ============================================================================
-- One event more
-- ============================================================================

section Concat

variable {dedup : Bool} {past window : List Event} {e : Event} {k l : HeatKey}

/-- Opening a segment starts a window, an observation goes into the one that is open, and
closing leaves none. -/
theorem openSince_concat :
    OpenSince (past ++ [e]) window ↔ (e = .beginSegment ∧ window = []) ∨
      ∃ l w, e = .observe l ∧ OpenSince past w ∧ window = w ++ [.observe l] := by
  constructor
  · rintro ⟨hbegins, hnoBegin, hnoEnd⟩
    rcases List.suffix_concat_iff.mp hbegins with hnil | ⟨t, ht, hsuffix⟩
    · cases hnil
    · cases t with
      | nil =>
        rw [List.nil_append, List.cons.injEq] at ht
        exact Or.inl ⟨ht.1.symm, ht.2⟩
      | cons b w =>
        rw [List.cons_append, List.cons.injEq] at ht
        obtain ⟨rfl, rfl⟩ := ht
        rw [List.mem_append, not_or] at hnoBegin hnoEnd
        cases e with
        | observe l => exact Or.inr ⟨l, w, rfl, ⟨hsuffix, hnoBegin.1, hnoEnd.1⟩, rfl⟩
        | beginSegment => exact absurd (List.mem_singleton.mpr rfl) hnoBegin.2
        | endSegment => exact absurd (List.mem_singleton.mpr rfl) hnoEnd.2
  · rintro (⟨rfl, rfl⟩ | ⟨l, w, rfl, hopen, rfl⟩)
    · exact ⟨⟨past, rfl⟩, List.not_mem_nil, List.not_mem_nil⟩
    · have hends :
          .beginSegment :: (w ++ [.observe l]) = (.beginSegment :: w) ++ [.observe l] := rfl
      refine ⟨?_, by simpa using hopen.noBegin, by simpa using hopen.noEnd⟩
      rw [hends, List.suffix_concat_iff]
      exact Or.inr ⟨_, rfl, hopen.begins⟩

/-- Observations leave a segment open or closed. -/
theorem isOpen_concat_observe :
    (∃ window, OpenSince (past ++ [.observe k]) window) ↔ ∃ window, OpenSince past window := by
  constructor
  · rintro ⟨window, hopen⟩
    rcases openSince_concat.mp hopen with ⟨hk, -⟩ | ⟨-, w, -, hw, -⟩
    · cases hk
    · exact ⟨w, hw⟩
  · rintro ⟨w, hw⟩
    exact ⟨_, openSince_concat.mpr (Or.inr ⟨k, w, rfl, hw, rfl⟩)⟩

/-- After an observation its key is suppressed too, if a segment is open. -/
theorem suppressed_concat_observe :
    Suppressed dedup (past ++ [.observe k]) l ↔ Suppressed dedup past l ∨
      (l = k ∧ dedup = true ∧ ∃ window, OpenSince past window) := by
  constructor
  · rintro ⟨hdedup, window, hopen, hl⟩
    rcases openSince_concat.mp hopen with ⟨hk, -⟩ | ⟨k', w, hk, hw, rfl⟩
    · cases hk
    · cases hk
      rcases List.mem_append.mp hl with hl | hl
      · exact Or.inl ⟨hdedup, w, hw, hl⟩
      · cases List.mem_singleton.mp hl
        exact Or.inr ⟨rfl, hdedup, w, hw⟩
  · have hnext : ∀ w, OpenSince past w → OpenSince (past ++ [.observe k]) (w ++ [.observe k]) :=
      fun w hw => openSince_concat.mpr (Or.inr ⟨k, w, rfl, hw, rfl⟩)
    rintro (⟨hdedup, w, hw, hl⟩ | ⟨rfl, hdedup, w, hw⟩)
    · exact ⟨hdedup, _, hnext w hw, List.mem_append_left _ hl⟩
    · exact ⟨hdedup, _, hnext w hw, List.mem_append_right _ (List.mem_singleton.mpr rfl)⟩

/-- Opening or closing a segment ends what was suppressed. -/
theorem not_suppressed_concat (he : e.key? = none) : ¬ Suppressed dedup (past ++ [e]) k := by
  rintro ⟨-, window, hopen, hk⟩
  rcases openSince_concat.mp hopen with ⟨-, rfl⟩ | ⟨l, -, rfl, -⟩
  · cases hk
  · cases he

theorem observe_mem_of_suppressed (h : Suppressed dedup past k) : .observe k ∈ past := by
  obtain ⟨-, window, hopen, hk⟩ := h
  exact hopen.begins.mem (List.mem_cons_of_mem _ hk)

theorem tally_concat :
    tally dedup (past ++ [e]) k =
      tally dedup past k + if e = .observe k ∧ ¬ Suppressed dedup past k then 1 else 0 := by
  unfold tally
  rw [List.length_append, List.length_singleton, List.range_succ, List.countP_append,
    List.countP_singleton]
  congr 1
  · refine List.countP_congr (fun i hi => ?_)
    have hlt : i < past.length := List.mem_range.mp hi
    rw [List.getElem?_append_left hlt, List.take_append_of_le_length (Nat.le_of_lt hlt)]
  · rw [List.getElem?_concat_length, List.take_left]
    simp only [Option.some.injEq, decide_eq_true_eq]

end Concat

-- ============================================================================
-- Counters and their history
-- ============================================================================

/-- Counters after a history. -/
structure Follows (dedup : Bool) (past : List Event) (h : Heat) : Prop where
  dedup_eq : h.dedup = dedup
  open_iff : h.segment.isSome = true ↔ dedup = true ∧ ∃ window, OpenSince past window
  seen_iff : ∀ seen, h.segment = some seen →
    ∀ k, seen.contains k = true ↔ Suppressed dedup past k
  count_eq : ∀ k, h.count k = min (tally dedup past k) Word.max
  keys_iff : ∀ k, k ∈ h.counts.keys ↔ .observe k ∈ past

theorem follows_new (dedup : Bool) : Follows dedup [] { dedup := dedup } where
  dedup_eq := rfl
  open_iff := by
    constructor
    · intro h
      cases h
    · rintro ⟨-, window, hopen⟩
      exact absurd hopen.begins (by simp)
  seen_iff := fun _ h => by cases h
  count_eq := fun _ => rfl
  keys_iff := fun _ => by simp

section Step

variable {dedup : Bool} {past : List Event} {h : Heat} {k : HeatKey}

theorem observe_of_seen {seen : KeySet HeatKey} (hopen : h.segment = some seen)
    (hk : seen.contains k = true) : (h.observe k).2 = h := by
  unfold observe
  rw [hopen]
  exact congrArg Prod.snd (if_pos hk)

/-- A key that was not seen in an open segment counts, and is seen from then on. -/
theorem observe_of_unseen
    (hk : ∀ seen, h.segment = some seen → seen.contains k = false) :
    (h.observe k).2 = { h.bump k with segment := h.segment.map (KeySet.add · k) } := by
  unfold observe
  cases hopen : h.segment with
  | none => exact congrArg (fun s => { h.bump k with segment := s }) hopen
  | some seen =>
    have hfalse : ¬ seen.contains k = true := by
      rw [hk seen hopen]
      exact Bool.false_ne_true
    exact congrArg Prod.snd (if_neg hfalse)

theorem mem_keys_bump {l : HeatKey} : l ∈ (h.bump k).counts.keys ↔ k = l ∨ l ∈ h.counts.keys := by
  rw [Table.mem_keys, Table.mem_keys]
  show (h.counts.insert k _).contains l = true ↔ _
  rw [Table.contains_insert, Bool.or_eq_true, decide_eq_true_eq]

namespace Follows

variable (hf : Follows dedup past h)
include hf

/-- A suppressed observation changes nothing. -/
theorem observe_suppressed (hk : Suppressed dedup past k) :
    Follows dedup (past ++ [.observe k]) (h.observe k).2 := by
  obtain ⟨hdedup, window, hwindow, -⟩ := id hk
  obtain ⟨seen, hseen⟩ := Option.isSome_iff_exists.mp (hf.open_iff.mpr ⟨hdedup, window, hwindow⟩)
  rw [observe_of_seen hseen ((hf.seen_iff seen hseen k).mpr hk)]
  refine ⟨hf.dedup_eq, ?_, fun seen hseen l => ?_, fun l => ?_, fun l => ?_⟩
  · rw [isOpen_concat_observe]
    exact hf.open_iff
  · rw [hf.seen_iff seen hseen, suppressed_concat_observe]
    constructor
    · exact Or.inl
    · rintro (hl | ⟨rfl, -⟩)
      · exact hl
      · exact hk
  · rw [hf.count_eq, tally_concat, if_neg, Nat.add_zero]
    rintro ⟨hl, hnot⟩
    cases hl
    exact hnot hk
  · rw [hf.keys_iff, List.mem_append, List.mem_singleton]
    constructor
    · exact Or.inl
    · rintro (hl | hl)
      · exact hl
      · cases hl
        exact observe_mem_of_suppressed hk

/-- Any other observation counts its key. -/
theorem observe_counted (hk : ¬ Suppressed dedup past k) :
    Follows dedup (past ++ [.observe k]) (h.observe k).2 := by
  have hunseen : ∀ seen, h.segment = some seen → seen.contains k = false :=
    fun seen hseen => Bool.eq_false_iff.mpr (fun hmem => hk ((hf.seen_iff seen hseen k).mp hmem))
  rw [observe_of_unseen hunseen]
  refine ⟨hf.dedup_eq, ?_, fun seen hseen l => ?_, fun l => ?_, fun l => ?_⟩
  · rw [isOpen_concat_observe, Option.isSome_map]
    exact hf.open_iff
  · obtain ⟨old, hold, rfl⟩ := Option.map_eq_some_iff.mp hseen
    have hopen := hf.open_iff.mp (Option.isSome_iff_exists.mpr ⟨old, hold⟩)
    rw [KeySet.contains_add, Bool.or_eq_true, decide_eq_true_eq, hf.seen_iff old hold,
      suppressed_concat_observe]
    constructor
    · rintro (rfl | hl)
      · exact Or.inr ⟨rfl, hopen⟩
      · exact Or.inl hl
    · rintro (hl | ⟨rfl, -⟩)
      · exact Or.inr hl
      · exact Or.inl rfl
  · show (h.bump k).count l = _
    rw [count_bump, tally_concat, hf.count_eq, hf.count_eq]
    by_cases hkl : k = l
    · subst hkl
      rw [if_pos rfl, if_pos ⟨rfl, hk⟩]
      omega
    · rw [if_neg hkl, if_neg (fun hl => hkl (by cases hl.1; rfl)), Nat.add_zero]
  · show l ∈ (h.bump k).counts.keys ↔ _
    rw [mem_keys_bump, hf.keys_iff, List.mem_append, List.mem_singleton, Event.observe.injEq,
      or_comm, eq_comm]

/-- Opening or closing a segment leaves the counts alone. -/
theorem concat_boundary {h' : Heat} {e : Event} (he : e.key? = none)
    (hcounts : h'.counts = h.counts) (hdedup : h'.dedup = h.dedup)
    (hopen : h'.segment.isSome = true ↔ dedup = true ∧ ∃ window, OpenSince (past ++ [e]) window)
    (hempty : ∀ seen, h'.segment = some seen → ∀ k, seen.contains k = false) :
    Follows dedup (past ++ [e]) h' := by
  have hnot : ∀ k, e ≠ .observe k := by
    rintro k rfl
    cases he
  refine ⟨hdedup.trans hf.dedup_eq, hopen, fun seen hseen k => ?_, fun k => ?_, fun k => ?_⟩
  · rw [hempty seen hseen k]
    constructor
    · intro h
      cases h
    · exact fun h => absurd h (not_suppressed_concat he)
  · have hcount : h'.count k = h.count k := by rw [count, hcounts, count]
    rw [hcount, tally_concat, if_neg (fun h => hnot k h.1), Nat.add_zero]
    exact hf.count_eq k
  · rw [hcounts, List.mem_append, List.mem_singleton, or_iff_left (Ne.symm (hnot k))]
    exact hf.keys_iff k

theorem beginSegment : Follows dedup (past ++ [.beginSegment]) h.beginSegment := by
  have hwindow : OpenSince (past ++ [.beginSegment]) [] :=
    openSince_concat.mpr (Or.inl ⟨rfl, rfl⟩)
  unfold Heat.beginSegment
  split
  · next hdedup =>
    refine hf.concat_boundary rfl rfl rfl ?_ (fun seen hseen k => ?_)
    · exact ⟨fun _ => ⟨hf.dedup_eq ▸ hdedup, [], hwindow⟩, fun _ => rfl⟩
    · cases hseen
      rfl
  · next hdedup =>
    -- no segment was open, and none is opened
    have hoff : ¬ dedup = true := hf.dedup_eq ▸ hdedup
    have hclosed : h.segment.isSome = true → False := fun hsome => hoff (hf.open_iff.mp hsome).1
    refine hf.concat_boundary rfl rfl rfl ?_ (fun seen hseen k => ?_)
    · exact ⟨fun hsome => absurd hsome hclosed, fun hon => absurd hon.1 hoff⟩
    · exact absurd (Option.isSome_iff_exists.mpr ⟨seen, hseen⟩) hclosed

theorem endSegment : Follows dedup (past ++ [.endSegment]) h.endSegment := by
  refine hf.concat_boundary rfl rfl rfl ?_ (fun seen hseen k => by cases hseen)
  constructor
  · intro hsome
    cases hsome
  · rintro ⟨-, window, hopen⟩
    rcases openSince_concat.mp hopen with ⟨he, -⟩ | ⟨l, w, he, -⟩
    · cases he
    · cases he

/-- Counters go along with their history. -/
theorem apply (e : Event) : Follows dedup (past ++ [e]) (h.apply e) := by
  cases e with
  | observe k =>
    by_cases hk : Suppressed dedup past k
    · exact hf.observe_suppressed hk
    · exact hf.observe_counted hk
  | beginSegment => exact hf.beginSegment
  | endSegment => exact hf.endSegment

theorem replay (later : List Event) : Follows dedup (past ++ later) (h.replay later) := by
  induction later generalizing past h with
  | nil =>
    rw [List.append_nil]
    exact hf
  | cons e later ih =>
    have hrest := ih (hf.apply e)
    rwa [List.append_assoc] at hrest

end Follows

end Step

-- ============================================================================
-- Counts
-- ============================================================================

variable {dedup : Bool} {past : List Event} {h : Heat} {k : HeatKey}

theorem tally_le_append (later : List Event) :
    tally dedup past k ≤ tally dedup (past ++ later) k := by
  induction later generalizing past with
  | nil => rw [List.append_nil]
  | cons e later ih =>
    have hrest : tally dedup (past ++ [e]) k ≤ tally dedup (past ++ [e] ++ later) k := ih
    rw [tally_concat, List.append_assoc] at hrest
    exact Nat.le_trans (Nat.le_add_right _ _) hrest

/-- Only observations of a key change its count. -/
theorem count_apply_of_ne {e : Event} (he : e ≠ .observe k) : (h.apply e).count k = h.count k := by
  cases e with
  | observe l => exact count_observe_of_ne h (fun hlk => he (hlk ▸ rfl))
  | beginSegment =>
    show h.beginSegment.count k = h.count k
    unfold beginSegment
    split <;> rfl
  | endSegment => rfl

/-- There are as many counts as different keys that were observed. -/
theorem Follows.size_eq (hf : Follows dedup past h) :
    h.size = (past.filterMap Event.key?).toFinset.card := by
  have hkeys : h.counts.keys.toFinset = (past.filterMap Event.key?).toFinset := by
    ext k
    rw [List.mem_toFinset, List.mem_toFinset, hf.keys_iff, List.mem_filterMap]
    constructor
    · intro hk
      exact ⟨_, hk, rfl⟩
    · rintro ⟨e, he, hkey⟩
      cases e with
      | observe l =>
        cases hkey
        exact he
      | beginSegment | endSegment => cases hkey
  rw [← hkeys, List.toFinset_card_of_nodup h.counts.nodup_keys]
  rfl

/-- Counting over any history. A count is the number of observations of its key that were
not suppressed, up to the largest word, and an observation gives the count that it
leaves. Counts never decrease, an event changes no count but that of the key it observes,
and there are as many counts as keys that were ever observed. -/
theorem counts_follow_history (dedup : Bool) (history : List Event) :
    let h : Heat := replay { dedup := dedup } history
    (∀ k, h.count k = min (tally dedup history k) Word.max) ∧
    (∀ k, (h.observe k).1 = (h.apply (.observe k)).count k) ∧
    (∀ k later, h.count k ≤ (h.replay later).count k) ∧
    (∀ k e, e ≠ .observe k → (h.apply e).count k = h.count k) ∧
    h.size = (history.filterMap Event.key?).toFinset.card := by
  intro h
  have hf : Follows dedup history h := (follows_new dedup).replay history
  refine ⟨hf.count_eq, fun k => (count_observe h k).symm, fun k later => ?_,
    fun k e => count_apply_of_ne, hf.size_eq⟩
  rw [hf.count_eq, (hf.replay later).count_eq]
  have hle : tally dedup history k ≤ tally dedup (history ++ later) k := tally_le_append later
  omega

/-- A segment that is opened again counts again, and so does everything after its end. -/
example :
    let k : HeatKey := .generic ⟨0, 1⟩
    let history : List Event := [.observe k, .beginSegment, .observe k, .observe k, .beginSegment,
      .observe k, .endSegment, .observe k, .observe k]
    tally true history k = 5 ∧ tally false history k = 6 := by decide

end Heat

end HotPath
