/-
  HotPath.Proofs.Program.Splits

  The arms of a split: the places that control comes to from its two successors, up to
  the join, a merge point or a return (`Function.Arms`). The search for allocations is
  exact: it finds one if and only if there is one in the arms (`Function.armsAllocate_iff`),
  which is to say that a path of control leads there (`Function.search_is_reachability`).

  A search may take up the places that are left in any order (`Search.Step`). At every
  moment what follows a place that was looked at was looked at too or is left
  (`Search.Covers`), so that nothing is missed when nothing is left. It comes to an end
  because each place that it looks at for the first time pays for the two that may come
  after it (`Search.left`). The search with fuel is one of these and does not run out.

  The search stops at every merge point and knows one join. A walk of the arms can go
  further: past a merge point that is no dispatch point, and past the join from inside of
  another split. `Function.Encloses` says of a split that this does not happen.
-/
import HotPath.Proofs.Program.Checked
import Mathlib.Data.Finset.Card
import Mathlib.Data.Finset.Range
import Mathlib.Data.List.Chain

namespace HotPath

/-- Whether the instruction makes a tuple. -/
def Instr.isAlloc : Instr → Bool
  | .alloc .. => true
  | _ => false

namespace Function

variable {f : Function} {join : Option Nat} {pc elsePc q n : Nat} {visited : KeySet Nat}
  {work : List Nat}

/-- Whether the instruction at an address makes a tuple. -/
def allocatesAt (f : Function) (pc : Nat) : Bool :=
  match f.code[pc]? with
  | some i => i.isAlloc
  | none => false

/-- Where control goes on from an address, without passing a merge point. -/
def onward (f : Function) (pc : Nat) : List Nat :=
  match f.code[pc]? with
  | some i => if i.isMergePoint then [] else i.successors pc
  | none => []

/-- The places that control comes to in the arms of a split. The join is one of them if
control comes to it, but those after it are not. -/
inductive Arms (f : Function) (pc elsePc : Nat) (join : Option Nat) : Nat → Prop where
  | start {q : Nat} (h : q ∈ [elsePc, pc + 1]) : Arms f pc elsePc join q
  | onward {q q' : Nat} (h : Arms f pc elsePc join q) (hj : join ≠ some q)
    (hq : q' ∈ f.onward q) : Arms f pc elsePc join q'

/-- Places that contain the first ones of the arms, and with a place all that follow it,
contain the arms. -/
theorem Arms.mem_of_closed {places : List Nat} (h : f.Arms pc elsePc join q)
    (hstart : ∀ x ∈ [elsePc, pc + 1], x ∈ places)
    (hclosed : ∀ x ∈ places, join ≠ some x → ∀ y ∈ f.onward x, y ∈ places) : q ∈ places := by
  induction h with
  | start hq => exact hstart _ hq
  | onward _ hj hq ih => exact hclosed _ ih hj _ hq

-- ============================================================================
-- One place
-- ============================================================================

theorem reachesAlloc_seen (h : join = some pc ∨ visited.contains pc = true) :
    f.reachesAlloc join (n + 1) visited (pc :: work) = f.reachesAlloc join n visited work := by
  rw [reachesAlloc, if_pos]
  rw [Bool.or_eq_true, decide_eq_true_eq]
  exact h

/-- A place that is looked at for the first time. -/
theorem reachesAlloc_fresh (hj : join ≠ some pc) (hv : visited.contains pc = false) :
    f.reachesAlloc join (n + 1) visited (pc :: work) =
      (f.allocatesAt pc || f.reachesAlloc join n (visited.add pc) (f.onward pc ++ work)) := by
  have hfresh : ¬ (decide (join = some pc) || visited.contains pc) = true := by
    rw [Bool.or_eq_true, decide_eq_true_eq, hv]
    exact not_or.mpr ⟨hj, Bool.false_ne_true⟩
  rw [reachesAlloc, if_neg hfresh]
  unfold allocatesAt onward
  cases f.code[pc]? with
  | none => rfl
  | some i =>
    cases i with
    | _ => rfl

theorem length_onward_le (f : Function) (pc : Nat) : (f.onward pc).length ≤ 2 := by
  unfold onward
  cases f.code[pc]? with
  | none => exact Nat.zero_le 2
  | some i =>
    cases i with
    | mergePoint | ret => exact Nat.zero_le 2
    | branch => exact Nat.le_refl 2
    | _ => exact Nat.le_succ 1

-- ============================================================================
-- Fuel
-- ============================================================================

/-- The number of places in the code that were not looked at. -/
def unseen (f : Function) (visited : KeySet Nat) : Nat :=
  ((Finset.range f.code.size).filter (fun q => visited.contains q = false)).card

theorem mem_unseen_of_add {x : Nat}
    (h : x ∈ (Finset.range f.code.size).filter (fun q => (visited.add pc).contains q = false)) :
    x ≠ pc ∧ x ∈ (Finset.range f.code.size).filter (fun q => visited.contains q = false) := by
  rw [Finset.mem_filter, KeySet.contains_add, Bool.or_eq_false_iff] at h
  obtain ⟨hx, hne, hv⟩ := h
  exact ⟨fun heq => of_decide_eq_false hne heq.symm, Finset.mem_filter.mpr ⟨hx, hv⟩⟩

/-- Looking at a place costs one, however many places follow it. -/
theorem pays_fresh (hv : visited.contains pc = false) :
    (f.onward pc ++ work).length + 2 * f.unseen (visited.add pc) ≤
      work.length + 2 * f.unseen visited := by
  have hsub : (Finset.range f.code.size).filter (fun q => (visited.add pc).contains q = false) ⊆
      (Finset.range f.code.size).filter (fun q => visited.contains q = false) :=
    fun x hx => (mem_unseen_of_add hx).2
  rw [List.length_append]
  by_cases hpc : pc < f.code.size
  · have hlt : f.unseen (visited.add pc) < f.unseen visited := by
      refine Finset.card_lt_card (Finset.ssubset_iff_of_subset hsub |>.mpr ⟨pc, ?_, fun hmem => ?_⟩)
      · exact Finset.mem_filter.mpr ⟨Finset.mem_range.mpr hpc, hv⟩
      · exact (mem_unseen_of_add hmem).1 rfl
    have := f.length_onward_le pc
    omega
  · have hnone : f.onward pc = [] := by
      unfold onward
      rw [Array.getElem?_eq_none (Nat.le_of_not_lt hpc)]
    have hle : f.unseen (visited.add pc) ≤ f.unseen visited := Finset.card_le_card hsub
    rw [hnone, List.length_nil]
    omega

-- ============================================================================
-- Searches in any order
-- ============================================================================

/-- A search for allocations: the places that were looked at and those that are left, or
the answer. -/
inductive Search where
  | looking (visited : KeySet Nat) (work : List Nat)
  | answer (found : Bool)

namespace Search

/-- One place is taken up, which may be any of those that are left. -/
inductive Step (f : Function) (join : Option Nat) : Search → Search → Prop where
  | finish {visited : KeySet Nat} : Step f join (.looking visited []) (.answer false)
  | skip {visited : KeySet Nat} {work rest : List Nat} {pc : Nat} (hw : work.Perm (pc :: rest))
    (h : join = some pc ∨ visited.contains pc = true) :
    Step f join (.looking visited work) (.looking visited rest)
  | find {visited : KeySet Nat} {work rest : List Nat} {pc : Nat} (hw : work.Perm (pc :: rest))
    (hj : join ≠ some pc) (hv : visited.contains pc = false) (ha : f.allocatesAt pc = true) :
    Step f join (.looking visited work) (.answer true)
  | pass {visited : KeySet Nat} {work rest : List Nat} {pc : Nat} (hw : work.Perm (pc :: rest))
    (hj : join ≠ some pc) (hv : visited.contains pc = false) (ha : f.allocatesAt pc = false) :
    Step f join (.looking visited work) (.looking (visited.add pc) (f.onward pc ++ rest))

/-- A number of places, one after the other. -/
inductive Run (f : Function) (join : Option Nat) : Nat → Search → Search → Prop where
  | refl {s : Search} : Run f join 0 s s
  | step {n : Nat} {s s' s'' : Search} (h : Step f join s s') (hrun : Run f join n s' s'') :
    Run f join (n + 1) s s''

variable {s s' : Search}

/-- A search that has no answer yet goes on. -/
theorem exists_step (f : Function) (join : Option Nat) (visited : KeySet Nat) (work : List Nat) :
    ∃ s, Step f join (.looking visited work) s := by
  cases work with
  | nil => exact ⟨_, .finish⟩
  | cons pc rest =>
    by_cases hseen : join = some pc ∨ visited.contains pc = true
    · exact ⟨_, .skip (.refl _) hseen⟩
    · obtain ⟨hj, hv⟩ := not_or.mp hseen
      rw [Bool.not_eq_true] at hv
      by_cases ha : f.allocatesAt pc = true
      · exact ⟨_, .find (.refl _) hj hv ha⟩
      · rw [Bool.not_eq_true] at ha
        exact ⟨_, .pass (.refl _) hj hv ha⟩

/-- What a search has left to do: a place that was not looked at stands for itself and the
two that may follow it. -/
def left (f : Function) : Search → Nat
  | .looking visited work => work.length + 2 * f.unseen visited + 1
  | .answer _ => 0

theorem Step.left_lt (h : Step f join s s') : s'.left f < s.left f := by
  cases h with
  | finish => exact Nat.succ_pos _
  | skip hw =>
    have hlen := hw.length_eq
    simp only [List.length_cons] at hlen
    simp only [left]
    omega
  | find => exact Nat.succ_pos _
  | @pass visited work rest pc hw hj hv =>
    have hlen := hw.length_eq
    have hpays : (f.onward pc ++ rest).length + 2 * f.unseen (visited.add pc) ≤
        rest.length + 2 * f.unseen visited := pays_fresh hv
    simp only [List.length_cons] at hlen
    simp only [left]
    omega

theorem Run.left_le (h : Run f join n s s') : n + s'.left f ≤ s.left f := by
  induction h with
  | refl => omega
  | step h _ ih =>
    have hlt := h.left_lt
    omega

/-- The search with fuel is one of these, if it does not run out. -/
theorem exists_run_reachesAlloc (hn : (looking visited work).left f ≤ n) :
    ∃ k, Run f join k (.looking visited work)
      (.answer (f.reachesAlloc join n visited work)) := by
  induction n generalizing visited work with
  | zero => simp only [left] at hn; omega
  | succ n ih =>
    -- whatever the first step is, it leaves less to do than before
    have hnext : ∀ {visited' work'}, Step f join (.looking visited work) (.looking visited' work') →
        (looking visited' work').left f ≤ n := by
      intro visited' work' h
      have hlt := h.left_lt
      omega
    cases work with
    | nil => exact ⟨1, .step .finish .refl⟩
    | cons pc rest =>
      by_cases hseen : join = some pc ∨ visited.contains pc = true
      · have hstep : Step f join (.looking visited (pc :: rest)) (.looking visited rest) :=
          .skip (.refl _) hseen
        obtain ⟨k, hk⟩ := ih (hnext hstep)
        rw [reachesAlloc_seen hseen]
        exact ⟨k + 1, .step hstep hk⟩
      · obtain ⟨hj, hv⟩ := not_or.mp hseen
        rw [Bool.not_eq_true] at hv
        rw [reachesAlloc_fresh hj hv]
        by_cases ha : f.allocatesAt pc = true
        · rw [ha, Bool.true_or]
          exact ⟨1, .step (.find (.refl _) hj hv ha) .refl⟩
        · rw [Bool.not_eq_true] at ha
          have hstep : Step f join (.looking visited (pc :: rest))
              (.looking (visited.add pc) (f.onward pc ++ rest)) := .pass (.refl _) hj hv ha
          obtain ⟨k, hk⟩ := ih (hnext hstep)
          rw [ha, Bool.false_or]
          exact ⟨k + 1, .step hstep hk⟩

-- ============================================================================
-- What a search has covered
-- ============================================================================

/-- A search of the arms of a split, under way: what is left lies in the arms, and all that
follows a place which was looked at was looked at too, or is left. -/
structure Covers (f : Function) (pc elsePc : Nat) (join : Option Nat) (visited : KeySet Nat)
    (work : List Nat) : Prop where
  inArms : ∀ q ∈ work, f.Arms pc elsePc join q
  starts : ∀ q ∈ [elsePc, pc + 1], join ≠ some q → visited.contains q = true ∨ q ∈ work
  follows : ∀ q, visited.contains q = true → ∀ q' ∈ f.onward q, join ≠ some q' →
    visited.contains q' = true ∨ q' ∈ work
  bare : ∀ q, visited.contains q = true → f.allocatesAt q = false

/-- There is an allocation in the arms, before the join. -/
def Allocates (f : Function) (pc elsePc : Nat) (join : Option Nat) : Prop :=
  ∃ q, f.Arms pc elsePc join q ∧ join ≠ some q ∧ f.allocatesAt q = true

/-- What a search of the arms of a split knows; an answer is the right one. -/
def Knows (f : Function) (pc elsePc : Nat) (join : Option Nat) : Search → Prop
  | .looking visited work => Covers f pc elsePc join visited work
  | .answer found => found = true ↔ Allocates f pc elsePc join

theorem covers_start (f : Function) (pc elsePc : Nat) (join : Option Nat) :
    Covers f pc elsePc join {} [elsePc, pc + 1] where
  inArms := fun _ hq => .start hq
  starts := fun _ hq _ => Or.inr hq
  follows := fun _ hq => by cases hq
  bare := fun _ hq => by cases hq

namespace Covers

variable {rest : List Nat} (h : Covers f pc elsePc join visited work)
include h

/-- When nothing is left, all of the arms was looked at. -/
theorem not_allocates (hw : work = []) : ¬ Allocates f pc elsePc join := by
  subst hw
  rintro ⟨q, hq, hj, ha⟩
  have hlooked : ∀ {q}, f.Arms pc elsePc join q → join ≠ some q → visited.contains q = true := by
    intro q hq
    induction hq with
    | start hq => exact fun hj => (h.starts _ hq hj).resolve_right List.not_mem_nil
    | onward _ hj hq ih =>
      exact fun hj' => (h.follows _ (ih hj) _ hq hj').resolve_right List.not_mem_nil
  rw [h.bare q (hlooked hq hj)] at ha
  cases ha

/-- A place that was looked at before, or is the join, can be left out. -/
theorem skip (hw : work.Perm (q :: rest)) (hq : join = some q ∨ visited.contains q = true) :
    Covers f pc elsePc join visited rest := by
  have hkeep : ∀ x, join ≠ some x → visited.contains x = true ∨ x ∈ work →
      visited.contains x = true ∨ x ∈ rest := by
    intro x hj hx
    rw [hw.mem_iff, List.mem_cons] at hx
    rcases hx with hx | rfl | hx
    · exact Or.inl hx
    · exact Or.inl (hq.resolve_left hj)
    · exact Or.inr hx
  refine ⟨fun x hx => ?_, fun x hx hj => ?_, fun x hx y hy hj => ?_, h.bare⟩
  · exact h.inArms x (hw.mem_iff.mpr (List.mem_cons_of_mem _ hx))
  · exact hkeep x hj (h.starts x hx hj)
  · exact hkeep y hj (h.follows x hx y hy hj)

/-- A place without an allocation gives way to those that follow it. -/
theorem pass (hw : work.Perm (q :: rest)) (hj : join ≠ some q) (ha : f.allocatesAt q = false) :
    Covers f pc elsePc join (visited.add q) (f.onward q ++ rest) := by
  have hmem : ∀ x, (visited.add q).contains x = true ↔ q = x ∨ visited.contains x = true := by
    intro x
    rw [KeySet.contains_add, Bool.or_eq_true, decide_eq_true_eq]
  have hkeep : ∀ x, visited.contains x = true ∨ x ∈ work →
      (visited.add q).contains x = true ∨ x ∈ f.onward q ++ rest := by
    intro x hx
    rw [hw.mem_iff, List.mem_cons] at hx
    rw [hmem, List.mem_append]
    rcases hx with hx | rfl | hx
    · exact Or.inl (Or.inr hx)
    · exact Or.inl (Or.inl rfl)
    · exact Or.inr (Or.inr hx)
  refine ⟨fun x hx => ?_, fun x hx hj' => hkeep x (h.starts x hx hj'),
    fun x hx y hy hj' => ?_, fun x hx => ?_⟩
  · rcases List.mem_append.mp hx with hx | hx
    · exact (h.inArms q (hw.mem_iff.mpr List.mem_cons_self)).onward hj hx
    · exact h.inArms x (hw.mem_iff.mpr (List.mem_cons_of_mem _ hx))
  · rcases (hmem x).mp hx with rfl | hx
    · exact Or.inr (List.mem_append_left _ hy)
    · exact hkeep y (h.follows x hx y hy hj')
  · rcases (hmem x).mp hx with rfl | hx
    · exact ha
    · exact h.bare x hx

end Covers

theorem Step.knows (h : Step f join s s') (hs : s.Knows f pc elsePc join) :
    s'.Knows f pc elsePc join := by
  cases h with
  | finish =>
    have hnone : ¬ Allocates f pc elsePc join := Covers.not_allocates hs rfl
    exact iff_of_false Bool.false_ne_true hnone
  | skip hw hq => exact Covers.skip hs hw hq
  | find hw hj hv ha =>
    have hq := Covers.inArms hs _ (hw.mem_iff.mpr List.mem_cons_self)
    exact iff_of_true rfl ⟨_, hq, hj, ha⟩
  | pass hw hj hv ha => exact Covers.pass hs hw hj ha

theorem Run.knows (h : Run f join n s s') (hs : s.Knows f pc elsePc join) :
    s'.Knows f pc elsePc join := by
  induction h with
  | refl => exact hs
  | step h _ ih => exact ih (h.knows hs)

end Search

-- ============================================================================
-- The arms of a split
-- ============================================================================

theorem left_start_le (f : Function) (pc elsePc : Nat) :
    (Search.looking {} [elsePc, pc + 1]).left f ≤ 2 * f.code.size + 3 := by
  have hunseen : f.unseen {} ≤ f.code.size :=
    Nat.le_trans (Finset.card_filter_le _ _) (Nat.le_of_eq (Finset.card_range _))
  simp only [Search.left, List.length_cons, List.length_nil]
  omega

theorem exists_run_armsAllocate (f : Function) (pc elsePc : Nat) (join : Option Nat) :
    ∃ n, Search.Run f join n (.looking {} [elsePc, pc + 1])
      (.answer (f.armsAllocate pc elsePc join)) := by
  refine Search.exists_run_reachesAlloc ?_
  have hle := f.left_start_le pc elsePc
  omega

theorem armsAllocate_iff :
    f.armsAllocate pc elsePc join = true ↔ Search.Allocates f pc elsePc join := by
  obtain ⟨n, hrun⟩ := f.exists_run_armsAllocate pc elsePc join
  exact hrun.knows (Search.covers_start f pc elsePc join)

/-- There is no allocation in the arms of a split that is not marked. -/
theorem Arms.not_allocatesAt (h : f.Arms pc elsePc join q) (hj : join ≠ some q)
    (hsimple : f.armsAllocate pc elsePc join = false) : f.allocatesAt q = false := by
  by_contra ha
  rw [Bool.not_eq_false] at ha
  rw [armsAllocate_iff.mpr ⟨q, h, hj, ha⟩] at hsimple
  cases hsimple

-- ============================================================================
-- Paths
-- ============================================================================

/-- Control can go from one place to the other. -/
def Flows (f : Function) (q q' : Nat) : Prop :=
  ∃ i, f.code[q]? = some i ∧ q' ∈ i.successors q

/-- A path of control from the start of an arm to a place. The places before that one are
neither the join nor merge points nor returns. -/
structure Path (f : Function) (pc elsePc : Nat) (join : Option Nat) (before : List Nat)
    (q : Nat) : Prop where
  starts : (before ++ [q]).head? = some (pc + 1) ∨ (before ++ [q]).head? = some elsePc
  flows : (before ++ [q]).IsChain f.Flows
  notJoin : ∀ x ∈ before, join ≠ some x
  notMergePoint : ∀ x ∈ before, ∀ greens, f.code[x]? ≠ some (.mergePoint greens)
  notRet : ∀ x ∈ before, ∀ src, f.code[x]? ≠ some (.ret src)

theorem mem_onward_iff {q' : Nat} : q' ∈ f.onward q ↔
    f.Flows q q' ∧ ∀ greens, f.code[q]? ≠ some (.mergePoint greens) := by
  unfold onward Flows
  cases hi : f.code[q]? with
  | none => simp
  | some i => cases i <;> simp [Instr.isMergePoint]

theorem not_flows_of_ret {q' : Nat} {src : Reg} (h : f.code[q]? = some (.ret src)) :
    ¬ f.Flows q q' := by
  rintro ⟨i, hi, hq'⟩
  cases h.symm.trans hi
  cases hq'

theorem Path.arms {before : List Nat} (h : f.Path pc elsePc join before q) :
    f.Arms pc elsePc join q := by
  induction before using List.reverseRecOn generalizing q with
  | nil =>
    have hstarts : q = pc + 1 ∨ q = elsePc := by simpa using h.starts
    exact .start (by simpa using hstarts.symm)
  | append_singleton before x ih =>
    obtain ⟨hstarts, hflows, hjoin, hmerge, hret⟩ := h
    have hx : x ∈ before ++ [x] := List.mem_append_right _ List.mem_cons_self
    obtain ⟨hchain, -, hlast⟩ := List.isChain_append.mp hflows
    have hflow : f.Flows x q := hlast x (by simp) q (by simp)
    have hpath : f.Path pc elsePc join before x := by
      refine ⟨by simpa using hstarts, hchain, fun y hy => ?_, fun y hy => ?_, fun y hy => ?_⟩
      · exact hjoin y (List.mem_append_left _ hy)
      · exact hmerge y (List.mem_append_left _ hy)
      · exact hret y (List.mem_append_left _ hy)
    exact (ih hpath).onward (hjoin x hx) (mem_onward_iff.mpr ⟨hflow, hmerge x hx⟩)

theorem Arms.exists_path (h : f.Arms pc elsePc join q) :
    ∃ before, f.Path pc elsePc join before q := by
  induction h with
  | start hq =>
    refine ⟨[], by simpa [or_comm] using hq, by simp, ?_, ?_, ?_⟩ <;> simp
  | @onward q q' _ hj hq ih =>
    obtain ⟨before, hstarts, hflows, hjoin, hmerge, hret⟩ := ih
    obtain ⟨hflow, hnot⟩ := mem_onward_iff.mp hq
    refine ⟨before ++ [q], by simpa using hstarts, ?_, fun x hx => ?_, fun x hx => ?_,
      fun x hx => ?_⟩
    · refine List.isChain_append.mpr ⟨hflows, by simp, ?_⟩
      simpa using hflow
    · rcases List.mem_append.mp hx with hx | hx
      · exact hjoin x hx
      · rwa [List.mem_singleton.mp hx]
    · rcases List.mem_append.mp hx with hx | hx
      · exact hmerge x hx
      · rwa [List.mem_singleton.mp hx]
    · rcases List.mem_append.mp hx with hx | hx
      · exact hret x hx
      · rw [List.mem_singleton.mp hx]
        exact fun src hsrc => not_flows_of_ret hsrc hflow

theorem allocatesAt_iff :
    f.allocatesAt q = true ↔ ∃ dst fields, f.code[q]? = some (.alloc dst fields) := by
  unfold allocatesAt
  cases hi : f.code[q]? with
  | none => simp
  | some i => cases i <;> simp [Instr.isAlloc]

/-- The search for allocations is reachability: a split has an allocating arm exactly if a
path of control leads from the start of an arm to an allocation, without the join on it and
without a merge point or a return before the allocation. The search ends by itself, in
whatever order it takes the places up: its runs are bounded by the code, and one that does
not go on has come to the same answer. -/
theorem search_is_reachability (f : Function) (pc elsePc : Nat) (join : Option Nat) :
    (f.armsAllocate pc elsePc join = true ↔
      ∃ before q, f.Path pc elsePc join before q ∧ join ≠ some q ∧
        ∃ dst fields, f.code[q]? = some (.alloc dst fields)) ∧
    (∃ n, Search.Run f join n (.looking {} [elsePc, pc + 1])
      (.answer (f.armsAllocate pc elsePc join))) ∧
    ∀ n s, Search.Run f join n (.looking {} [elsePc, pc + 1]) s →
      n ≤ 2 * f.code.size + 3 ∧
      (s = .answer (f.armsAllocate pc elsePc join) ∨ ∃ s', Search.Step f join s s') := by
  refine ⟨?_, f.exists_run_armsAllocate pc elsePc join, fun n s hrun => ⟨?_, ?_⟩⟩
  · rw [armsAllocate_iff]
    constructor
    · rintro ⟨q, hq, hj, ha⟩
      obtain ⟨before, hpath⟩ := hq.exists_path
      exact ⟨before, q, hpath, hj, allocatesAt_iff.mp ha⟩
    · rintro ⟨before, q, hpath, hj, ha⟩
      exact ⟨q, hpath.arms, hj, allocatesAt_iff.mpr ha⟩
  · have hbound := hrun.left_le
    have hstart := f.left_start_le pc elsePc
    omega
  · cases s with
    | looking visited work => exact Or.inr (Search.exists_step f join visited work)
    | answer found =>
      have hright : found = true ↔ Search.Allocates f pc elsePc join :=
        hrun.knows (Search.covers_start f pc elsePc join)
      exact Or.inl (congrArg _ (Bool.eq_iff_iff.mpr (hright.trans armsAllocate_iff.symm)))

/-- An arm that goes around for ever, and one with an allocation behind a merge point. -/
example :
    let f : Function :=
      { name := "around", registers := 1,
        code := #[.branch 0 3 none, .branch 0 1 none, .jump 1, .mergePoint [], .alloc 0 [], .ret 0] }
    f.armsAllocate 0 3 none = false ∧ f.armsAllocate 0 4 none = true ∧
      f.armsAllocate 0 4 (some 4) = false := by decide +kernel

end Function

/-- The mark of a split. -/
theorem Program.isAllocatingSplit_eq {p : Program} {func : FuncId} {f : Function} {pc : Nat}
    {cond : Reg} {elsePc : Nat} {join : Option Nat} (hf : p.functions[func]? = some f)
    (hi : f.code[pc]? = some (.branch cond elsePc join)) :
    p.isAllocatingSplit ⟨func, pc⟩ = f.armsAllocate pc elsePc join := by
  have hrow : (Facts.tabulate f f.isAllocatingSplit)[pc]? = some (f.isAllocatingSplit pc) := by
    unfold Facts.tabulate
    rw [List.getElem?_toArray, List.getElem?_map, List.getElem?_range (lt_of_getElem? hi)]
    rfl
  unfold isAllocatingSplit Facts.lookup
  rw [p.facts_eq]
  unfold Facts.ofFunctions
  dsimp only
  rw [Array.getElem?_map, hf, Option.map_some, Option.bind_some, hrow, Option.getD_some]
  unfold Function.isAllocatingSplit
  rw [hi]

-- ============================================================================
-- Arms inside of arms
-- ============================================================================

/-- A walk of the arms of a split stays in them: it stops at their merge points, and where
the arms of a split inside of them meet, it is still there. -/
structure Function.Encloses (f : Function) (stops : Nat → Bool) (pc elsePc : Nat)
    (join : Option Nat) : Prop where
  mergePoints : ∀ q greens, f.Arms pc elsePc join q → join ≠ some q →
    f.code[q]? = some (.mergePoint greens) → stops q = true
  joins : ∀ q cond elsePc' k, f.Arms pc elsePc join q → join ≠ some q →
    f.code[q]? = some (.branch cond elsePc' (some k)) →
    f.armsAllocate q elsePc' (some k) = false → f.Arms q elsePc' (some k) k →
    f.Arms pc elsePc join k

/-- All splits of a function that are not marked enclose their arms. Where all merge points
are dispatch points, this is about joins only. -/
def Program.SplitsEnclose (p : Program) (headersOnly : Bool) (func : FuncId) : Prop :=
  ∀ f pc cond elsePc join, p.functions[func]? = some f →
    f.code[pc]? = some (.branch cond elsePc join) → f.armsAllocate pc elsePc join = false →
    f.Encloses (fun q => p.isDispatchPoint headersOnly ⟨func, q⟩) pc elsePc join

end HotPath
