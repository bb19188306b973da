/-
  HotPath.Proofs.Region.HotArm

  Which arm of an allocating split is kept. An arm dominates if its count reaches the
  threshold and is more than twice the other's (`Guide.Dominates`). The test of an arm doubles
  the count of the other one, and a count that does not fit into a word when it is doubled
  makes it overflow (`Guide.Overflows`). Counts stop growing at the largest word, not at half
  of it, so there are counts for which this happens (`Guide.hotArm_overflows`).

  The arms are tested one after the other (`Guide.hotArm_eq`). The first one is always told
  exactly, because the count of an arm that it dominates can be doubled, and the second one
  unless the test of the first overflows (`Guide.hotArm_is_exact`).
-/
import HotPath.Proofs.Unit.Windows
import HotPath.Region.Grow

namespace HotPath

-- ============================================================================
-- One arm
-- ============================================================================

/-- The test of an arm, in exact arithmetic. -/
theorem dominates_eq (threshold count other : Nat) :
    dominates threshold count other =
      if threshold ≤ count ∧ Word.half ≤ other then .error .overflow
      else .ok (decide (threshold ≤ count ∧ 2 * other < count)) := by
  have hhalf : Word.half = 9223372036854775808 := rfl
  have hword : Word.max = 18446744073709551615 := rfl
  by_cases hcount : threshold ≤ count
  · by_cases hother : Word.half ≤ other
    · have hover : ¬ 2 * other ≤ Word.max := by omega
      simp [dominates, twice, hcount, hother, hover, Except.map]
    · have hfits : 2 * other ≤ Word.max := by omega
      simp [dominates, twice, hcount, hother, hfits, Except.map]
  · simp [dominates, hcount]

namespace Guide

variable {g : Guide} {loc : Location} {arm : Bool}

/-- An arm of a split dominates: its count reaches the threshold and is more than twice the
other's. -/
def Dominates (g : Guide) (loc : Location) (arm : Bool) : Prop :=
  g.policy.splitThreshold ≤ g.heat.count (.split loc arm) ∧
    2 * g.heat.count (.split loc !arm) < g.heat.count (.split loc arm)

/-- The test of an arm doubles a count that is too large for it. -/
def Overflows (g : Guide) (loc : Location) (arm : Bool) : Prop :=
  g.policy.splitThreshold ≤ g.heat.count (.split loc arm) ∧
    Word.half ≤ g.heat.count (.split loc !arm)

instance : Decidable (g.Dominates loc arm) := inferInstanceAs (Decidable (_ ∧ _))

instance : Decidable (g.Overflows loc arm) := inferInstanceAs (Decidable (_ ∧ _))

/-- At most one arm dominates. -/
theorem Dominates.other (h : g.Dominates loc arm) : ¬ g.Dominates loc (!arm) := by
  rintro ⟨-, hother⟩
  obtain ⟨-, harm⟩ := h
  rw [Bool.not_not] at hother
  omega

/-- The count of an arm that is dominated can be doubled. -/
theorem Dominates.not_overflows (h : g.Dominates loc arm)
    (hmax : ∀ k, g.heat.count k ≤ Word.max) : ¬ g.Overflows loc arm := by
  rintro ⟨-, hover⟩
  have hlt := h.2
  have hle := hmax (.split loc arm)
  have hhalf : Word.half = 9223372036854775808 := rfl
  have hword : Word.max = 18446744073709551615 := rfl
  omega

-- ============================================================================
-- Both arms
-- ============================================================================

/-- The arm that is taken is tested first, and the other one after it. -/
theorem hotArm_eq (g : Guide) (loc : Location) :
    g.hotArm loc =
      if g.Overflows loc true then .error .overflow
      else if g.Dominates loc true then .ok (some true)
      else if g.Overflows loc false then .error .overflow
      else if g.Dominates loc false then .ok (some false)
      else .ok none := by
  have htest : ∀ arm, dominates g.policy.splitThreshold (g.heat.count (.split loc arm))
      (g.heat.count (.split loc !arm)) =
        if g.Overflows loc arm then .error .overflow
        else .ok (decide (g.Dominates loc arm)) := fun arm => dominates_eq _ _ _
  have htrue := htest true
  have hfalse := htest false
  rw [Bool.not_true] at htrue
  rw [Bool.not_false] at hfalse
  unfold hotArm
  dsimp only
  rw [htrue, hfalse]
  by_cases hover : g.Overflows loc true
  · rw [if_pos hover, if_pos hover]
    rfl
  · rw [if_neg hover, if_neg hover]
    by_cases hdom : g.Dominates loc true
    · rw [decide_eq_true hdom, if_pos hdom]
      rfl
    · rw [decide_eq_false hdom, if_neg hdom]
      by_cases hover' : g.Overflows loc false
      · rw [if_pos hover', if_pos hover']
        rfl
      · rw [if_neg hover', if_neg hover']
        by_cases hdom' : g.Dominates loc false
        · rw [decide_eq_true hdom', if_pos hdom']
          rfl
        · rw [decide_eq_false hdom', if_neg hdom']
          rfl

section

variable (hmax : ∀ k, g.heat.count k ≤ Word.max)

include hmax

/-- The arm that is taken is told if it dominates, and only then. -/
theorem hotArm_eq_taken : g.hotArm loc = .ok (some true) ↔ g.Dominates loc true := by
  rw [hotArm_eq]
  constructor
  · intro h
    by_contra hdom
    rw [if_neg hdom] at h
    split_ifs at h <;> cases h
  · intro hdom
    rw [if_neg (hdom.not_overflows hmax), if_pos hdom]

/-- The other one is told if it dominates, unless the first test has overflowed. -/
theorem hotArm_eq_other :
    g.hotArm loc = .ok (some false) ↔ g.Dominates loc false ∧ ¬ g.Overflows loc true := by
  rw [hotArm_eq]
  constructor
  · intro h
    have hover : ¬ g.Overflows loc true := by
      intro hover
      rw [if_pos hover] at h
      cases h
    refine ⟨?_, hover⟩
    by_contra hdom
    rw [if_neg hover, if_neg hdom] at h
    split_ifs at h <;> cases h
  · rintro ⟨hdom, hover⟩
    have htaken : ¬ g.Dominates loc true := hdom.other
    rw [if_neg hover, if_neg htaken, if_neg (hdom.not_overflows hmax), if_pos hdom]

end

/-- Neither arm is told if neither dominates and no test overflows. -/
theorem hotArm_eq_none :
    g.hotArm loc = .ok none ↔ ∀ arm, ¬ g.Dominates loc arm ∧ ¬ g.Overflows loc arm := by
  rw [hotArm_eq]
  constructor
  · intro h arm
    split_ifs at h with hover hdom hover' hdom'
    · cases h
    · cases h
    · cases arm with
      | true => exact ⟨hdom, hover⟩
      | false => exact ⟨hdom', hover'⟩
  · intro h
    rw [if_neg (h true).2, if_neg (h true).1, if_neg (h false).2, if_neg (h false).1]

/-- A test overflows if it is made: the first one always is, the second one unless the first
has told its arm. -/
theorem hotArm_eq_overflow :
    g.hotArm loc = .error .overflow ↔
      g.Overflows loc true ∨ g.Overflows loc false ∧ ¬ g.Dominates loc true := by
  rw [hotArm_eq]
  constructor
  · intro h
    split_ifs at h with hover hdom hover'
    · exact Or.inl hover
    · exact Or.inr ⟨hover', hdom⟩
  · rintro (hover | ⟨hover', hdom⟩)
    · rw [if_pos hover]
    · rw [if_neg hdom, if_pos hover', ite_self]

end Guide

-- ============================================================================
-- Counts that were counted
-- ============================================================================

namespace Heat

variable {dedup : Bool} {history : List Event} {k : HeatKey}

/-- A counter that does not de-duplicate counts everything. -/
theorem tally_false (history : List Event) (k : HeatKey) :
    tally false history k = history.count (.observe k) := by
  induction history using List.reverseRecOn with
  | nil => rfl
  | append_singleton past e ih =>
    have hcounts : ¬ Suppressed false past k := fun h => by cases h.1
    rw [tally_concat, ih, List.count_append, List.count_singleton]
    simp [hcounts]

theorem tally_le_length : tally dedup history k ≤ history.length := by
  unfold tally
  exact Nat.le_trans List.countP_le_length (Nat.le_of_eq List.length_range)

theorem count_replay (dedup : Bool) (history : List Event) (k : HeatKey) :
    (replay { dedup := dedup } history).count k = min (tally dedup history k) Word.max :=
  ((follows_new dedup).replay history).count_eq k

theorem count_replay_le (dedup : Bool) (history : List Event) (k : HeatKey) :
    (replay { dedup := dedup } history).count k ≤ Word.max := by
  rw [count_replay]
  exact Nat.min_le_right _ _

/-- Passes through the arms of a split, first those that take it. -/
def passes (loc : Location) (taken notTaken : Nat) : List Event :=
  List.replicate taken (.observe (.split loc true)) ++
    List.replicate notTaken (.observe (.split loc false))

theorem count_replay_passes (loc : Location) (taken notTaken : Nat) :
    (replay {} (passes loc taken notTaken)).count (.split loc true) = min taken Word.max ∧
    (replay {} (passes loc taken notTaken)).count (.split loc false) = min notTaken Word.max := by
  simp [count_replay, tally_false, passes, List.count_replicate]

end Heat

namespace Guide

variable {g : Guide}

/-- No test overflows before there were more observations than a count can be doubled. -/
theorem not_overflows_replay {dedup : Bool} {history : List Heat.Event} {loc : Location}
    {arm : Bool} (hheat : g.heat = Heat.replay { dedup := dedup } history)
    (hlen : history.length < Word.half) : ¬ g.Overflows loc arm := by
  rintro ⟨-, hover⟩
  have hcount := Heat.count_replay dedup history (.split loc !arm)
  have htally : Heat.tally dedup history (.split loc !arm) ≤ history.length := Heat.tally_le_length
  rw [hheat] at hover
  omega

/-- A tuple that one arm makes and the other one does without. -/
def bypass : Function :=
  { name := "bypass", registers := 2,
    code := #[.branch 0 3 (some 4), .alloc 1 [0], .jump 4, .const 1 .nil, .ret 1] }

/-- The function as a program. -/
def bypassProgram : Program :=
  { functions := #[bypass], entry := 0, facts := .ofFunctions #[bypass], faultless := by decide,
    facts_eq := rfl }

/-- The arm that is told to dominate, for all counts that fit into a word. The arm that is
taken is told if and only if it dominates; the other one if and only if it does and the first
test does not overflow. Only a test that overflows fails, and both arms never dominate. There
is no overflow after fewer than 2^63 observations. -/
theorem hotArm_is_exact (hmax : ∀ k, g.heat.count k ≤ Word.max) (loc : Location) :
    (g.hotArm loc = .ok (some true) ↔ g.Dominates loc true) ∧
    (g.hotArm loc = .ok (some false) ↔ g.Dominates loc false ∧ ¬ g.Overflows loc true) ∧
    (g.hotArm loc = .ok none ↔
      ∀ arm, ¬ g.Dominates loc arm ∧ ¬ g.Overflows loc arm) ∧
    (g.hotArm loc = .error .overflow ↔
      g.Overflows loc true ∨ g.Overflows loc false ∧ ¬ g.Dominates loc true) ∧
    ¬ (g.Dominates loc true ∧ g.Dominates loc false) ∧
    ∀ dedup history, g.heat = Heat.replay { dedup := dedup } history →
      history.length < Word.half → ∀ arm, ¬ g.Overflows loc arm := by
  have hone : ¬ (g.Dominates loc true ∧ g.Dominates loc false) := fun h => h.1.other h.2
  exact ⟨hotArm_eq_taken hmax, hotArm_eq_other hmax, hotArm_eq_none, hotArm_eq_overflow, hone,
    fun dedup history hheat hlen arm => not_overflows_replay hheat hlen⟩

/-- A taken arm that has been counted up to the largest word and beyond. -/
theorem hotArm_is_exact_saturated :
    let g : Guide :=
      ⟨bypassProgram, {}, Heat.replay {} (Heat.passes ⟨0, 0⟩ (Word.max + 5) 7), {}⟩
    (∀ k, g.heat.count k ≤ Word.max) ∧ g.heat.count (.split ⟨0, 0⟩ true) = Word.max ∧
      g.hotArm ⟨0, 0⟩ = .ok (some true) := by
  have hmax := Heat.count_replay_le false (Heat.passes ⟨0, 0⟩ (Word.max + 5) 7)
  have hcounts := Heat.count_replay_passes ⟨0, 0⟩ (Word.max + 5) 7
  -- only the counts matter from here on; the history is too long to be replayed
  revert hmax hcounts
  generalize Heat.replay _ (Heat.passes ⟨0, 0⟩ (Word.max + 5) 7) = heat
  intro hmax hcounts g
  have hword : Word.max = 18446744073709551615 := rfl
  have htaken : heat.count (.split ⟨0, 0⟩ true) = Word.max := by omega
  have hother : heat.count (.split ⟨0, 0⟩ false) = 7 := by omega
  have hdom : g.Dominates ⟨0, 0⟩ true := by
    simp only [Dominates, Bool.not_true, g, htaken, hother]
    omega
  exact ⟨hmax, htaken, (hotArm_is_exact (g := g) hmax ⟨0, 0⟩).1.mpr hdom⟩

/-- After 2^63 passes through one arm and one through the other the first of them dominates,
and the test of the other one overflows. -/
theorem hotArm_overflows :
    let g : Guide := ⟨bypassProgram, { splitThreshold := 1 },
      Heat.replay {} (Heat.passes ⟨0, 0⟩ 1 Word.half), {}⟩
    g.heat.count (.split ⟨0, 0⟩ true) = 1 ∧ g.heat.count (.split ⟨0, 0⟩ false) = Word.half ∧
      g.Dominates ⟨0, 0⟩ false ∧ g.hotArm ⟨0, 0⟩ = .error .overflow := by
  have hcounts := Heat.count_replay_passes ⟨0, 0⟩ 1 Word.half
  revert hcounts
  generalize Heat.replay _ (Heat.passes ⟨0, 0⟩ 1 Word.half) = heat
  intro hcounts g
  have hhalf : Word.half = 9223372036854775808 := rfl
  have hword : Word.max = 18446744073709551615 := rfl
  have htaken : heat.count (.split ⟨0, 0⟩ true) = 1 := by omega
  have hother : heat.count (.split ⟨0, 0⟩ false) = Word.half := by omega
  have hdom : g.Dominates ⟨0, 0⟩ false := by
    simp only [Dominates, Bool.not_false, g, htaken, hother]
    omega
  have hover : g.Overflows ⟨0, 0⟩ true := by
    simp only [Overflows, Bool.not_true, g, htaken, hother]
    omega
  exact ⟨htaken, hother, hdom, by rw [hotArm_eq, if_pos hover]⟩

end Guide

end HotPath
