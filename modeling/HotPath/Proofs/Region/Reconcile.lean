/-
  HotPath.Proofs.Region.Reconcile

  What becomes of two arms that have met. A register is `Irreconcilable` if one arm
  relies on a value that the other is not fixed to, or if only one of them has it
  tainted. Merging names the first such register and gives the arms back
  (`Region.mergeArms_eq_clash`); without one it always succeeds, and the registers
  that it gives stand in each arm for what they stood for before
  (`Region.reconciled_of_weave`).
-/
import HotPath.Proofs.Region.Total

namespace HotPath

namespace Region

-- ============================================================================
-- One register
-- ============================================================================

/-- No binding can stand for a register that one arm relies on and the other is
not fixed to, or that only one of them has tainted. -/
def Irreconcilable (t e : Binding) : Prop :=
  ((t.isPinned = true ∨ e.isPinned = true) ∧ t.const? ≠ e.const?) ∨ t.isTainted ≠ e.isTainted

instance (t e : Binding) : Decidable (Irreconcilable t e) :=
  inferInstanceAs (Decidable (((t.isPinned = true ∨ e.isPinned = true) ∧ t.const? ≠ e.const?) ∨
    t.isTainted ≠ e.isTainted))

/-- What is said of an irreconcilable register. -/
def conflictOf (t e : Binding) : Conflict :=
  if t.isPinned = true ∨ e.isPinned = true then .pinned else .taint

theorem exists_const?_of_isPinned {b : Binding} (h : b.isPinned = true) :
    ∃ v, b.const? = some v := by
  cases b with
  | fixed k => exact ⟨k.value, rfl⟩
  | slot s tainted => cases h

theorem sameConst_iff {t e : Binding} :
    sameConst t e = true ↔ ∃ v, t.const? = some v ∧ e.const? = some v := by
  cases t with
  | slot s tainted => simp [sameConst, Binding.const?]
  | fixed k =>
    cases e with
    | slot s tainted => simp [sameConst, Binding.const?]
    | fixed k' => simp [sameConst, Binding.const?, @eq_comm _ k'.value]

/-- Registers clash exactly if they are irreconcilable. -/
theorem mergeReg_eq_clash {t e : Binding} {why : Conflict} :
    mergeReg t e = .clash why ↔ Irreconcilable t e ∧ conflictOf t e = why := by
  by_cases heq : t = e
  · subst heq
    simp [mergeReg, Irreconcilable]
  by_cases hsame : sameConst t e = true
  · obtain ⟨v, ht, he⟩ := sameConst_iff.mp hsame
    simp [mergeReg, Irreconcilable, heq, hsame, ht, he, Binding.isTainted_of_const? ht,
      Binding.isTainted_of_const? he]
  by_cases hpin : t.isPinned = true ∨ e.isPinned = true
  · have hne : t.const? ≠ e.const? := by
      intro hconst
      apply hsame
      rcases hpin with hp | hp
      · obtain ⟨v, hv⟩ := exists_const?_of_isPinned hp
        exact sameConst_iff.mpr ⟨v, hv, hconst ▸ hv⟩
      · obtain ⟨v, hv⟩ := exists_const?_of_isPinned hp
        exact sameConst_iff.mpr ⟨v, hconst.trans hv, hv⟩
    simp [mergeReg, Irreconcilable, conflictOf, heq, hsame, hpin, hne]
  · simp only [mergeReg, Irreconcilable, conflictOf, heq, hsame, hpin, Bool.or_eq_true, if_false,
      false_and, false_or]
    by_cases htaint : t.isTainted = e.isTainted <;> simp [htaint]

/-- A value that one arm relies on is kept, unless the arms are irreconcilable. -/
theorem mergeReg_of_pinned {t e : Binding} {v : Value} (hr : ¬ Irreconcilable t e)
    (hp : t = .fixed ⟨v, true⟩ ∨ e = .fixed ⟨v, true⟩) :
    mergeReg t e = .keep (.fixed ⟨v, true⟩) := by
  have hpin : t.isPinned = true ∨ e.isPinned = true := by
    rcases hp with rfl | rfl
    · exact Or.inl rfl
    · exact Or.inr rfl
  have hconst : t.const? = e.const? :=
    Decidable.byContradiction (fun hne => hr (Or.inl ⟨hpin, hne⟩))
  rcases hp with rfl | rfl
  · cases e with
    | slot s tainted => cases hconst
    | fixed k =>
      obtain ⟨v', pinned⟩ := k
      cases hconst
      cases pinned <;> simp [mergeReg, sameConst, Binding.isPinned]
  · cases t with
    | slot s tainted => cases hconst
    | fixed k =>
      obtain ⟨v', pinned⟩ := k
      cases hconst
      cases pinned <;> simp [mergeReg, sameConst, Binding.isPinned]

-- ============================================================================
-- The first register that cannot be merged
-- ============================================================================

/-- Two arms cannot be reconciled at a register. -/
def Apart (ts es : List Binding) (reg : Reg) : Prop :=
  ∃ t e, ts[reg]? = some t ∧ es[reg]? = some e ∧ Irreconcilable t e

/-- A register at which two arms cannot be reconciled, though at all before it
they can, and what is said of it. -/
structure FirstApart (ts es : List Binding) (reg : Reg) (why : Conflict) : Prop where
  before : ∀ i, i < reg → ¬ Apart ts es i
  here : ∃ t e, ts[reg]? = some t ∧ es[reg]? = some e ∧ Irreconcilable t e ∧ conflictOf t e = why

theorem apart_zero {t e : Binding} {ts es : List Binding} :
    Apart (t :: ts) (e :: es) 0 ↔ Irreconcilable t e := by
  simp [Apart]

theorem apart_succ {t e : Binding} {ts es : List Binding} {i : Nat} :
    Apart (t :: ts) (e :: es) (i + 1) ↔ Apart ts es i := by
  simp [Apart]

/-- A first register that is apart stands at the head, or among the others if
the heads can be reconciled. -/
theorem firstApart_cons {t e : Binding} {ts es : List Binding} {reg : Reg} {why : Conflict} :
    FirstApart (t :: ts) (e :: es) reg why ↔
      (reg = 0 ∧ Irreconcilable t e ∧ conflictOf t e = why) ∨
        (¬ Irreconcilable t e ∧ ∃ i, reg = i + 1 ∧ FirstApart ts es i why) := by
  constructor
  · intro ⟨hbefore, hhere⟩
    cases reg with
    | zero =>
      obtain ⟨t', e', ht, he, hr, hwhy⟩ := hhere
      cases ht
      cases he
      exact Or.inl ⟨rfl, hr, hwhy⟩
    | succ i =>
      refine Or.inr ⟨fun hr => hbefore 0 (Nat.succ_pos i) (apart_zero.mpr hr), i, rfl, ?_, hhere⟩
      intro j hj hapart
      exact hbefore (j + 1) (Nat.succ_lt_succ hj) (apart_succ.mpr hapart)
  · rintro (⟨rfl, hr, hwhy⟩ | ⟨hr, i, rfl, hbefore, hhere⟩)
    · exact ⟨fun i hi => absurd hi (Nat.not_lt_zero i), t, e, rfl, rfl, hr, hwhy⟩
    · refine ⟨?_, hhere⟩
      intro j hj hapart
      cases j with
      | zero => exact hr (apart_zero.mp hapart)
      | succ j => exact hbefore j (Nat.lt_of_succ_lt_succ hj) (apart_succ.mp hapart)

theorem firstClash?_cons_of_irreconcilable {t e : Binding} (hr : Irreconcilable t e) (n : Nat)
    (ts es : List Binding) : firstClash? n (t :: ts) (e :: es) = some (n, conflictOf t e) := by
  rw [firstClash?, mergeReg_eq_clash.mpr ⟨hr, rfl⟩]

theorem firstClash?_cons_of_not_irreconcilable {t e : Binding} (hr : ¬ Irreconcilable t e) (n : Nat)
    (ts es : List Binding) : firstClash? n (t :: ts) (e :: es) = firstClash? (n + 1) ts es := by
  rw [firstClash?]
  cases hm : mergeReg t e with
  | clash why => exact absurd (mergeReg_eq_clash.mp hm).1 hr
  | keep b => rfl
  | widen => rfl

/-- The search for a clash finds the first register that is apart. -/
theorem firstClash?_eq_some {ts es : List Binding} {n : Nat} {reg : Reg} {why : Conflict} :
    firstClash? n ts es = some (reg, why) ↔ ∃ i, reg = n + i ∧ FirstApart ts es i why := by
  induction ts generalizing n es with
  | nil =>
    simp only [firstClash?, reduceCtorEq, false_iff]
    rintro ⟨i, -, -, t, e, ht, -⟩
    simp at ht
  | cons t ts ih =>
    cases es with
    | nil =>
      simp only [firstClash?, reduceCtorEq, false_iff]
      rintro ⟨i, -, -, t, e, -, he, -⟩
      simp at he
    | cons e es =>
      by_cases hr : Irreconcilable t e
      · simp only [firstClash?_cons_of_irreconcilable hr, firstApart_cons, hr, not_true_eq_false,
          false_and, or_false, true_and, Option.some.injEq, Prod.mk.injEq]
        constructor
        · rintro ⟨rfl, hwhy⟩
          exact ⟨0, rfl, rfl, hwhy⟩
        · rintro ⟨i, rfl, rfl, hwhy⟩
          exact ⟨rfl, hwhy⟩
      · simp only [firstClash?_cons_of_not_irreconcilable hr, firstApart_cons, hr, false_and,
          and_false, false_or, not_false_eq_true, true_and, ih]
        constructor
        · rintro ⟨i, rfl, hfirst⟩
          exact ⟨i + 1, Nat.add_right_comm n 1 i, i, rfl, hfirst⟩
        · rintro ⟨i, rfl, j, rfl, hfirst⟩
          exact ⟨j, (Nat.add_right_comm n 1 j).symm, hfirst⟩

/-- Where arms are apart, there is a first register at which they are. -/
theorem exists_firstApart {ts es : List Binding} {reg : Reg} (h : Apart ts es reg) :
    ∃ i why, FirstApart ts es i why := by
  induction reg using Nat.strongRecOn with
  | ind reg ih =>
    by_cases hbefore : ∃ i, i < reg ∧ Apart ts es i
    · obtain ⟨i, hi, hapart⟩ := hbefore
      exact ih i hi hapart
    · obtain ⟨t, e, ht, he, hr⟩ := h
      exact ⟨reg, conflictOf t e, fun i hi hapart => hbefore ⟨i, hi, hapart⟩, t, e, ht, he, hr, rfl⟩

theorem FirstApart.apart {ts es : List Binding} {reg : Reg} {why : Conflict}
    (h : FirstApart ts es reg why) : Apart ts es reg := by
  obtain ⟨t, e, ht, he, hr, -⟩ := h.here
  exact ⟨t, e, ht, he, hr⟩

-- ============================================================================
-- Two arms
-- ============================================================================

variable {a b : Region}

/-- Merging gives the arms back, with the first register at which they are
apart. -/
theorem mergeArms_eq_clash (hmet : Met a b) (a' b' : Region) (reg : Reg) (why : Conflict) :
    mergeArms a b = .ok (.clash a' b' reg why) ↔
      a' = a ∧ b' = b ∧ FirstApart a.regs b.regs reg why := by
  have hfirst : firstClash? 0 a.regs b.regs = some (reg, why) ↔
      FirstApart a.regs b.regs reg why := by
    simp [firstClash?_eq_some]
  rw [← hfirst]
  unfold mergeArms
  rw [if_pos (met_iff.mp hmet)]
  constructor
  · intro h
    cases hclash : firstClash? 0 a.regs b.regs with
    | some x =>
      rw [hclash] at h
      cases h
      exact ⟨rfl, rfl, rfl⟩
    | none =>
      rw [hclash] at h
      obtain ⟨w, -, h⟩ := bind_eq_ok.mp h
      cases h
  · rintro ⟨rfl, rfl, hclash⟩
    rw [hclash]

/-- A register that is kept is what merging says of it. -/
theorem getElem?_weave {next : Slot} {ts es : List Binding} {w : Weave} {i : Nat}
    {t e c : Binding} (h : weave next ts es = .ok w) (ht : ts[i]? = some t) (he : es[i]? = some e)
    (hm : mergeReg t e = .keep c) : w.regs[i]? = some c := by
  induction ts generalizing next es w i with
  | nil => simp at ht
  | cons t₀ ts ih =>
    cases es with
    | nil => simp at he
    | cons e₀ es =>
      rcases weave_cons_eq_ok h with ⟨c', w', hm', hw, rfl⟩ | ⟨w', hm', hw, rfl⟩
      · cases i with
        | zero =>
          cases ht
          cases he
          rw [hm] at hm'
          cases hm'
          rfl
        | succ i =>
          simp only [List.getElem?_cons_succ] at ht he ⊢
          exact ih hw ht he
      · cases i with
        | zero =>
          cases ht
          cases he
          exact absurd hm (hm' c)
        | succ i =>
          simp only [List.getElem?_cons_succ] at ht he ⊢
          exact ih hw ht he

/-- What merging makes of two arms. Each runs its operations and then holds in
the merged registers what it held in its own, and nothing that either arm has a
slot for is overwritten. -/
structure Reconciled (a b : Region) (thenOps elseOps : List Op) (q : Region) : Prop where
  thenFills : ∀ call, Fills call (max a.nextSlot b.nextSlot) q.nextSlot thenOps a.regs q.regs
  elseFills : ∀ call, Fills call (max a.nextSlot b.nextSlot) q.nextSlot elseOps b.regs q.regs
  pinned : ∀ (reg : Reg) v, a.regs[reg]? = some (.fixed ⟨v, true⟩) ∨
    b.regs[reg]? = some (.fixed ⟨v, true⟩) → q.regs[reg]? = some (.fixed ⟨v, true⟩)
  nextSlot_le : a.nextSlot ≤ q.nextSlot ∧ b.nextSlot ≤ q.nextSlot
  below : ∀ c ∈ q.regs, c.Below q.nextSlot

/-- Registers that are nowhere apart are reconciled. -/
theorem reconciled_of_weave {w : Weave} (hmet : Met a b)
    (ha : ∀ c ∈ a.regs, c.Below a.nextSlot) (hb : ∀ c ∈ b.regs, c.Below b.nextSlot)
    (hnone : ∀ reg, ¬ Apart a.regs b.regs reg)
    (hclash : firstClash? 0 a.regs b.regs = none)
    (hw : weave (max a.nextSlot b.nextSlot) a.regs b.regs = .ok w) :
    Reconciled a b w.thenOps w.elseOps (woven a b w) := by
  have hwoven : ∀ call, Woven call (max a.nextSlot b.nextSlot) a.regs b.regs w := fun call =>
    woven_of_weave hmet.length_eq hclash (fun c hc => (ha c hc).mono (Nat.le_max_left _ _))
      (fun c hc => (hb c hc).mono (Nat.le_max_right _ _)) hw
  have hle := (hwoven .never).nextSlot_le
  refine ⟨fun call => (hwoven call).thenFills, fun call => (hwoven call).elseFills, ?_,
    Nat.max_le.mp hle, (hwoven .never).below⟩
  intro reg v hp
  have hlt : reg < a.regs.length := by
    rcases hp with hp | hp
    · exact (List.getElem?_eq_some_iff.mp hp).1
    · rw [hmet.length_eq]
      exact (List.getElem?_eq_some_iff.mp hp).1
  have ht := List.getElem?_eq_getElem hlt
  have he := List.getElem?_eq_getElem (hmet.length_eq ▸ hlt)
  rw [ht, he, Option.some.injEq, Option.some.injEq] at hp
  exact getElem?_weave hw ht he
    (mergeReg_of_pinned (fun hr => hnone reg ⟨_, _, ht, he, hr⟩) hp)

/-- Two arms that have met merge unless some register is apart: then merging
names the first such register, and gives both arms back as they were. Merged arms
are reconciled. -/
theorem merging_is_sound (hmet : Met a b) (ha : ∀ c ∈ a.regs, c.Below a.nextSlot)
    (hb : ∀ c ∈ b.regs, c.Below b.nextSlot) (hregs : a.regs.length ≤ Reg.limit)
    (hslots : max a.nextSlot b.nextSlot + Reg.limit ≤ Word.max32) :
    (∀ a' b' reg why, mergeArms a b = .ok (.clash a' b' reg why) ↔
      a' = a ∧ b' = b ∧ FirstApart a.regs b.regs reg why) ∧
    ((∃ reg, Apart a.regs b.regs reg) → ∃ reg why, mergeArms a b = .ok (.clash a b reg why)) ∧
    ((∀ reg, ¬ Apart a.regs b.regs reg) → ∃ thenOps elseOps q,
      mergeArms a b = .ok (.merged (a.ops.toList ++ thenOps) (b.ops.toList ++ elseOps) q) ∧
        Reconciled a b thenOps elseOps q) := by
  have hclash := mergeArms_eq_clash hmet
  refine ⟨hclash, ?_, ?_⟩
  · rintro ⟨reg, hapart⟩
    obtain ⟨i, why, hfirst⟩ := exists_firstApart hapart
    exact ⟨i, why, (hclash a b i why).mpr ⟨rfl, rfl, hfirst⟩⟩
  · intro hnone
    have hroom : True → max a.nextSlot b.nextSlot + a.regs.length ≤ Word.max32 := by omega
    obtain ⟨merge, hmerge⟩ := (mergeArms_succeedsIf hmet hroom).succeeds trivial
    cases merge with
    | clash a' b' reg why =>
      obtain ⟨-, -, hfirst⟩ := (hclash a' b' reg why).mp hmerge
      exact absurd hfirst.apart (hnone reg)
    | merged thenOps elseOps q =>
      obtain ⟨-, hfree, w, hw, rfl, rfl, rfl⟩ := mergeArms_eq_merged hmerge
      exact ⟨w.thenOps, w.elseOps, _, hmerge, reconciled_of_weave hmet ha hb hnone hfree hw⟩

/-- An arm that relies on register 1. -/
def relyingArm : Region where
  func := 0
  entry := ⟨0, 1⟩
  regs := [.slot 0 true, .fixed ⟨.int 4, true⟩, .fixed ⟨.int 1, false⟩, .slot 3 false, .slot 5 true]
  ops := #[.copy 5 0]
  cursor := 9
  nextSlot := 6

/-- An arm that reads one slot for registers 2 and 3. -/
def sharingArm : Region where
  func := 0
  entry := ⟨0, 1⟩
  regs := [.slot 0 true, .fixed ⟨.int 4, false⟩, .slot 2 false, .slot 2 false, .slot 4 true]
  ops := #[.const 4 .nil]
  cursor := 9
  nextSlot := 5

/-- An arm that has another value in register 1, and register 2 tainted. -/
def strayingArm : Region where
  func := 0
  entry := ⟨0, 1⟩
  regs := [.slot 0 true, .fixed ⟨.int 5, false⟩, .slot 4 true, .slot 3 false, .slot 5 true]
  cursor := 9
  nextSlot := 6

/-- Registers 2, 3 and 4 of the first two arms move to new slots. The third arm is
apart from the first at register 1 before it is at register 2. -/
theorem merging_is_sound_relying :
    Met relyingArm sharingArm ∧ Met relyingArm strayingArm ∧
      relyingArm.regs.length ≤ Reg.limit ∧
      (∀ c ∈ relyingArm.regs, c.Below relyingArm.nextSlot) ∧
      (∀ c ∈ sharingArm.regs, c.Below sharingArm.nextSlot) ∧
      (∀ c ∈ strayingArm.regs, c.Below strayingArm.nextSlot) ∧
      (∃ thenOps elseOps q, mergeArms relyingArm sharingArm =
          .ok (.merged (.copy 5 0 :: thenOps) (.const 4 .nil :: elseOps) q) ∧
        Reconciled relyingArm sharingArm thenOps elseOps q) ∧
      mergeArms relyingArm strayingArm = .ok (.clash relyingArm strayingArm 1 .pinned) := by
  have hrelying : ∀ c ∈ relyingArm.regs, c.Below relyingArm.nextSlot := by
    simp [relyingArm, Binding.Below, Binding.slot?]
  have hsharing : ∀ c ∈ sharingArm.regs, c.Below sharingArm.nextSlot := by
    simp [sharingArm, Binding.Below, Binding.slot?]
  have hstraying : ∀ c ∈ strayingArm.regs, c.Below strayingArm.nextSlot := by
    simp [strayingArm, Binding.Below, Binding.slot?]
  have hnone : ∀ reg, ¬ Apart relyingArm.regs sharingArm.regs reg := by
    rintro (_ | _ | _ | _ | _ | reg) ⟨t, e, ht, he, hr⟩ <;> cases ht <;> cases he <;>
      revert hr <;> decide
  have hfirst : FirstApart relyingArm.regs strayingArm.regs 1 .pinned := by
    refine ⟨?_, _, _, rfl, rfl, by decide, by decide⟩
    intro i hi
    obtain rfl : i = 0 := Nat.lt_one_iff.mp hi
    exact fun hapart => absurd (apart_zero.mp hapart) (by decide)
  have hmerged := merging_is_sound (a := relyingArm) (b := sharingArm) ⟨rfl, rfl, rfl⟩ hrelying
    hsharing (by decide) (by decide)
  have hclash := merging_is_sound (a := relyingArm) (b := strayingArm) ⟨rfl, rfl, rfl⟩ hrelying
    hstraying (by decide) (by decide)
  exact ⟨⟨rfl, rfl, rfl⟩, ⟨rfl, rfl, rfl⟩, by decide, hrelying, hsharing, hstraying,
    hmerged.2.2 hnone, (hclash.1 _ _ _ _).mpr ⟨rfl, rfl, hfirst⟩⟩

end Region

end HotPath
