/-
  HotPath.Proofs.Region.Empty

  Attempts that find nothing to execute. Such a walk leaves no operation behind but its
  exit, so it goes along one path: no split on its way is on an unknown value
  (`Region.Walks.straight`). It does not look at counters, and of the store it only asks
  which promotion sites are generic. The sites that it has passed stay generic, so it
  comes out the same later on, unless it ended at a promotion site that has turned
  generic since (`Region.specialize_empty_again`).
-/
import HotPath.Proofs.Region.Course

namespace HotPath

/-- Another guide for the same program and policy, by which every site that was generic
still is. -/
structure Guide.Precedes (g g' : Guide) : Prop where
  program_eq : g'.program = g.program
  policy_eq : g'.policy = g.policy
  generic : ∀ site, g.store.isGeneric site = true → g'.store.isGeneric site = true

namespace Region

variable {g g' : Guide} {r r₁ r₂ r' : Region} {i : Instr}

-- ============================================================================
-- One instruction
-- ============================================================================

theorem compute_eq_of_program_eq (h : g'.program = g.program) (r : Region) (i : Instr) :
    r.compute g' i = r.compute g i := by
  cases i with
  | call dst func args => rw [compute, compute, h]
  | const | move | binary | input | print | alloc | getField | jump | branch | mergePoint
  | promote | ret => rfl

theorem Begins.later (hg : g.Precedes g') (hb : Begins g r r₁ i) : Begins g' r r₁ i where
  apart := hb.apart
  tick := hb.tick
  within := hg.policy_eq ▸ hb.within
  instr := hg.program_eq ▸ hb.instr

/-- An instruction after which the walk went on is treated as before. -/
theorem step_on_later (hg : g.Precedes g') (h : r.step g i = .ok (.on r')) :
    r.step g' i = .ok (.on r') := by
  cases i with
  | jump | branch => exact h
  | mergePoint greens =>
    rw [step] at h ⊢
    rw [hg.program_eq, hg.policy_eq]
    exact h
  | promote reg =>
    obtain ⟨b, hb, h⟩ := bind_eq_ok.mp h
    refine bind_eq_ok.mpr ⟨b, hb, ?_⟩
    split at h
    · cases h
    · next hpass =>
      rw [if_neg]
      · exact h
      · -- a site that was passed because it is generic still is
        intro hends
        simp only [Bool.and_eq_true, Bool.not_eq_true'] at hpass hends
        refine hpass ⟨hends.1, Bool.eq_false_iff.mpr (fun hgen => ?_)⟩
        exact Bool.eq_false_iff.mp hends.2 (hg.generic _ hgen)
  | ret src =>
    obtain ⟨b, -, h⟩ := bind_eq_ok.mp h
    cases h
  | const | move | binary | input | print | alloc | getField | call =>
    show (r.compute g' _ >>= fun q => q.advance.map Step.on) = _
    rw [compute_eq_of_program_eq hg.program_eq]
    exact h

/-- So is one that ended the walk, but for a promotion site that turned generic. -/
theorem step_ends_later (hg : g.Precedes g') (h : r.step g i = .ok (.ends r'))
    (hstop : ∀ reg, i = .promote reg → g'.store.isGeneric r.loc = false) :
    r.step g' i = .ok (.ends r') := by
  cases i with
  | jump | branch | ret => exact h
  | mergePoint greens =>
    rw [step] at h ⊢
    rw [hg.program_eq, hg.policy_eq]
    exact h
  | promote reg =>
    obtain ⟨b, hb, h⟩ := bind_eq_ok.mp h
    refine bind_eq_ok.mpr ⟨b, hb, ?_⟩
    split at h
    · next hends =>
      rw [if_pos]
      · exact h
      · simp only [Bool.and_eq_true, Bool.not_eq_true'] at hends ⊢
        exact ⟨hends.1, hstop reg rfl⟩
    · obtain ⟨q, -, hq⟩ := map_on_eq_ok h
      cases hq
  | const | move | binary | input | print | alloc | getField | call =>
    obtain ⟨q, -, h⟩ := bind_eq_ok.mp h
    obtain ⟨q', -, hq⟩ := map_on_eq_ok h
    cases hq

/-- A promotion site that ends a walk is not generic. -/
theorem not_generic_of_ends {reg : Reg} (h : r.step g (.promote reg) = .ok (.ends r')) :
    g.store.isGeneric r.loc = false := by
  obtain ⟨b, -, h⟩ := bind_eq_ok.mp h
  split at h
  · next hends =>
    simp only [Bool.and_eq_true, Bool.not_eq_true'] at hends
    exact hends.2
  · obtain ⟨q, -, hq⟩ := map_on_eq_ok h
    cases hq

-- ============================================================================
-- Walks that leave nothing behind
-- ============================================================================

/-- What a walk has left behind stays. -/
theorem Walks.mem_ops {j : Bool} {op : Op} (h : Walks g r j r') (hop : op ∈ r.ops.toList) :
    op ∈ r'.ops.toList := by
  obtain ⟨ops, hops⟩ := h.lays rfl
  rw [hops.ops_eq]
  exact List.mem_append_left ops hop

/-- A walk that leaves nothing behind but an exit goes along one path. -/
theorem Walks.straight (h : Walks g r false r') (hexits : r'.ops.toList.all Op.isExit = true) :
    ∃ r₁ i, Begins g r r₁ i ∧ (r₁.step g i = .ok (.ends r') ∨
      ∃ r₂, r₁.step g i = .ok (.on r₂)) := by
  have hnone : ∀ op ∈ r'.ops.toList, op.isExit ≠ false := fun op hop hexit =>
    Bool.false_ne_true (hexit.symm.trans (List.all_eq_true.mp hexits op hop))
  have hpushed : ∀ {q : Region} {ops : Array Op} {op : Op}, q.ops = ops.push op →
      op ∈ q.ops.toList := by
    intro q ops op hops
    rw [hops, Array.toList_push]
    exact List.mem_append_right _ (List.mem_singleton_self op)
  cases h with
  | ends hb hs => exact ⟨_, _, hb, Or.inl hs⟩
  | on hb hs hw => exact ⟨_, _, hb, Or.inr ⟨_, hs⟩⟩
  | keep hb hs hw => exact absurd rfl (hnone _ (hw.mem_ops (hpushed rfl)))
  | rejoin hb hs hsimple ht he hj hw =>
    obtain ⟨⟨thenOps, elseOps, hops, -⟩, -⟩ := rejoin_eq_ok hj
    exact absurd rfl (hnone _ (hw.mem_ops (hpushed hops)))
  | part hb hs hsimple ht he hj =>
    obtain ⟨⟨thenOps, elseOps, hops, -⟩, -⟩ := rejoin_eq_ok hj
    exact absurd rfl (hnone _ (hpushed hops))

/-- One instruction of a walk, and then the rest. -/
theorem grow_of_begins (hb : Begins g r r₁ i) (n : Nat) :
    (∀ {r₂}, r₁.step g i = .ok (.on r₂) → grow g (n + 1) r = grow g n r₂) ∧
      ∀ {r₂}, r₁.step g i = .ok (.ends r₂) → grow g (n + 1) r = .ok (.done, r₂) := by
  refine ⟨fun hs => ?_, fun hs => ?_⟩
  · rw [grow, if_neg hb.apart, hb.tick]
    simp only [bind, Except.bind, if_neg (Nat.not_lt.mpr hb.within), hb.instr, hs]
  · rw [grow, if_neg hb.apart, hb.tick]
    simp only [bind, Except.bind, if_neg (Nat.not_lt.mpr hb.within), hb.instr, hs]
    rfl

/-- The promotion site at which the last operation of a region leaves, if it does at one. -/
def endSite? (r : Region) : Option Location :=
  match r.ops.back? with
  | some (.exit ⟨loc, .promotion _, _⟩) => some loc
  | _ => none

/-- A step that ends the walk leaves at a promotion site if it is a promotion, and only
then. -/
theorem mem_endSite?_of_ends (h : r.step g i = .ok (.ends r')) {site : Location} :
    site ∈ r'.endSite? ↔ site = r.loc ∧ ∃ reg, i = .promote reg := by
  have hlast : ∀ kind, (r.leaveHere kind).ops.back? = some (.exit (r.leaveAt r.loc kind)) :=
    fun kind => Array.back?_push
  cases treats_of_step h with
  | arrive => simp [endSite?, hlast, leaveAt]
  | promote => simp [endSite?, hlast, leaveAt, eq_comm]
  | ret => simp [endSite?, hlast, leaveAt]

/-- A walk that leaves nothing behind but its exit comes out the same later on, unless it
ended at a promotion site that has turned generic. -/
theorem grow_again {n : Nat} (h : grow g n r = .ok (.done, r'))
    (hexits : r'.ops.toList.all Op.isExit = true) :
    (∀ site ∈ r'.endSite?, g.store.isGeneric site = false ∧
      ∃ reg, g.program.instr? site = some (.promote reg)) ∧
    ∀ g', g.Precedes g' → (∀ site ∈ r'.endSite?, g'.store.isGeneric site = false) →
      grow g' n r = .ok (.done, r') := by
  induction n generalizing r with
  | zero => cases h
  | succ n ih =>
    obtain ⟨r₁, i, hb, hs | ⟨r₂, hs⟩⟩ := (walks_of_grow h rfl).straight hexits
    · refine ⟨fun site hsite => ?_, fun g' hg hstop => ?_⟩
      · obtain ⟨rfl, reg, rfl⟩ := (mem_endSite?_of_ends hs).mp hsite
        exact ⟨not_generic_of_ends hs, reg, hb.instr⟩
      · refine (grow_of_begins (hb.later hg) n).2 (step_ends_later hg hs ?_)
        rintro reg rfl
        exact hstop r₁.loc ((mem_endSite?_of_ends hs).mpr ⟨rfl, reg, rfl⟩)
    · rw [(grow_of_begins hb n).1 hs] at h
      obtain ⟨hstop, hagain⟩ := ih h
      refine ⟨hstop, fun g' hg hsites => ?_⟩
      rw [(grow_of_begins (hb.later hg) n).1 (step_on_later hg hs)]
      exact hagain g' hg hsites

/-- The promotion site at which an attempt ends, if it ends at one. -/
def stop? (r : Region) (g : Guide) : Option Location :=
  match r.grow g (g.policy.maxRegionInstrs + 2) with
  | .ok (_, grown) => grown.endSite?
  | .error _ => none

/-- An attempt that found nothing finds nothing later on either, whatever was counted
since, unless it ended at a promotion site that has turned generic. -/
theorem specialize_empty_again (h : r.specialize g = .ok .empty) :
    (∀ site ∈ r.stop? g, g.store.isGeneric site = false ∧
      ∃ reg, g.program.instr? site = some (.promote reg)) ∧
    ∀ g', g.Precedes g' → (∀ site ∈ r.stop? g, g'.store.isGeneric site = false) →
      r.specialize g' = .ok .empty := by
  unfold specialize at h
  obtain ⟨⟨ending, grown⟩, hgrow, h⟩ := bind_eq_ok.mp h
  have hstop? : r.stop? g = grown.endSite? := by rw [stop?, hgrow]
  cases ending with
  | gaveUp reason => cases h
  | joined => cases h
  | done =>
    have hempty : grown.toTrace.isEmpty = true := by
      cases he : grown.toTrace.isEmpty with
      | true => rfl
      | false =>
        simp only [he] at h
        cases h
    obtain ⟨hstop, hagain⟩ := grow_again hgrow hempty
    rw [hstop?]
    refine ⟨hstop, fun g' hg hsites => ?_⟩
    have hgrow' := hagain g' hg hsites
    unfold specialize
    rw [hg.policy_eq]
    refine bind_eq_ok.mpr ⟨_, hgrow', ?_⟩
    simp only [hempty]
    rfl

end Region

end HotPath
