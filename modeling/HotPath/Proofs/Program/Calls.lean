/-
  HotPath.Proofs.Program.Calls

  The marks of functions with effects are exact: a function is marked if and only if a
  chain of calls leads from it to a function that reads input or prints
  (`Effects.marks_exact`).

  Whatever way the marks are spread, as long as only callers of marked functions are
  added, they stay sound (`Effects.Within`), and if nothing is left to add they are
  complete (`Effects.Within.exact`). Two ways that come to an end therefore end with the
  same marks. Spreading all marks at once is one of them, and visiting the functions one
  after the other, in any order and with each visit seeing the marks of those before it,
  is another (`Effects.settle_eq_some`).
-/
import HotPath.Proofs.Program.Effects
import Mathlib.Logic.Relation

namespace HotPath

namespace Effects

-- ============================================================================
-- Chains of calls
-- ============================================================================

/-- A function has a call of another one, which may be missing. -/
def Calls (functions : Array Function) (k j : FuncId) : Prop :=
  ∃ f dst args, functions[k]? = some f ∧ Instr.call dst j args ∈ f.code

/-- A function reads input or prints itself. -/
def Performs (functions : Array Function) (k : FuncId) : Prop :=
  ∃ f reg, functions[k]? = some f ∧ (Instr.input reg ∈ f.code ∨ Instr.print reg ∈ f.code)

/-- A chain of calls leads from a function to one that reads input or prints. All
functions of the chain exist. -/
def Leads (functions : Array Function) (k : FuncId) : Prop :=
  ∃ j, Relation.ReflTransGen (Calls functions) k j ∧ Performs functions j

variable {functions : Array Function} {marks : Array Bool} {k j : FuncId}

theorem Performs.leads (h : Performs functions k) : Leads functions k := ⟨k, .refl, h⟩

theorem Calls.leads (h : Calls functions k j) (hj : Leads functions j) : Leads functions k := by
  obtain ⟨l, hchain, hl⟩ := hj
  exact ⟨l, .head h hchain, hl⟩

theorem isIo_iff {i : Instr} : i.isIo = true ↔ ∃ reg, i = .input reg ∨ i = .print reg := by
  cases i <;> simp [Instr.isIo]

theorem callsMarked_iff {i : Instr} :
    i.callsMarked marks = true ↔ ∃ dst j args, i = .call dst j args ∧ marks[j]? = some true := by
  cases i with
  | call dst j args =>
    have hmark : marks.getD j false = true ↔ marks[j]? = some true := by
      simp [Array.getD_eq_getD_getElem?, Option.getD_eq_iff]
    constructor
    · intro h
      exact ⟨dst, j, args, rfl, hmark.mp h⟩
    · rintro ⟨_, _, _, hcall, hj⟩
      cases hcall
      exact hmark.mpr hj
  | _ => simp [Instr.callsMarked]

theorem performs_iff {f : Function} (hf : functions[k]? = some f) :
    Performs functions k ↔ f.code.any Instr.isIo = true := by
  rw [Array.any_eq_true']
  constructor
  · rintro ⟨f', reg, hf', h | h⟩
    · cases hf.symm.trans hf'
      exact ⟨_, h, rfl⟩
    · cases hf.symm.trans hf'
      exact ⟨_, h, rfl⟩
  · rintro ⟨i, hi, hio⟩
    obtain ⟨reg, rfl | rfl⟩ := isIo_iff.mp hio
    · exact ⟨f, reg, hf, Or.inl hi⟩
    · exact ⟨f, reg, hf, Or.inr hi⟩

theorem calls_marked_iff {f : Function} (hf : functions[k]? = some f) :
    (∃ j, Calls functions k j ∧ marks[j]? = some true) ↔
      f.code.any (Instr.callsMarked marks) = true := by
  rw [Array.any_eq_true']
  constructor
  · rintro ⟨j, ⟨f', dst, args, hf', hcall⟩, hj⟩
    cases hf.symm.trans hf'
    exact ⟨_, hcall, callsMarked_iff.mpr ⟨dst, j, args, rfl, hj⟩⟩
  · rintro ⟨i, hi, hmarked⟩
    obtain ⟨dst, j, args, rfl, hj⟩ := callsMarked_iff.mp hmarked
    exact ⟨j, ⟨f, dst, args, hf, hi⟩, hj⟩

-- ============================================================================
-- Marks on their way
-- ============================================================================

/-- Marks that are spread: whoever reads input or prints has one, and whoever has one
leads there. -/
structure Within (functions : Array Function) (marks : Array Bool) : Prop where
  size_eq : marks.size = functions.size
  performs : ∀ k : FuncId, Performs functions k → marks[k]? = some true
  leads : ∀ k : FuncId, marks[k]? = some true → Leads functions k

/-- There is a function for every mark. -/
theorem exists_function {b : Bool} (hsize : marks.size = functions.size)
    (hk : marks[k]? = some b) : ∃ f, functions[k]? = some f := by
  obtain ⟨hlt, -⟩ := Array.getElem?_eq_some_iff.mp hk
  exact ⟨_, Array.getElem?_eq_getElem (hsize ▸ hlt)⟩

theorem within_direct (functions : Array Function) : Within functions (direct functions) where
  size_eq := size_direct
  performs := by
    intro k h
    obtain ⟨f, reg, hf, -⟩ := id h
    rw [getElem?_direct hf, (performs_iff hf).mp h]
  leads := by
    intro k hk
    obtain ⟨f, hf⟩ := exists_function size_direct hk
    rw [getElem?_direct hf, Option.some.injEq] at hk
    exact ((performs_iff hf).mpr hk).leads

/-- A mark more, where a caller of a marked function lacks it. -/
structure Adds (functions : Array Function) (marks wider : Array Bool) : Prop where
  size_eq : wider.size = marks.size
  keeps : ∀ k : FuncId, marks[k]? = some true → wider[k]? = some true
  calls : ∀ k : FuncId, wider[k]? = some true → marks[k]? = some true ∨
    ∃ j, Calls functions k j ∧ marks[j]? = some true

theorem Within.adds {wider : Array Bool} (h : Within functions marks)
    (hadds : Adds functions marks wider) : Within functions wider where
  size_eq := hadds.size_eq.trans h.size_eq
  performs := fun k hk => hadds.keeps k (h.performs k hk)
  leads := by
    intro k hk
    rcases hadds.calls k hk with hk | ⟨j, hcall, hj⟩
    · exact h.leads k hk
    · exact hcall.leads (h.leads j hj)

/-- Marks that no caller of a marked function lacks are exactly right. -/
theorem Within.exact (h : Within functions marks)
    (hclosed : ∀ k j, Calls functions k j → marks[j]? = some true → marks[k]? = some true) :
    marks[k]? = some true ↔ Leads functions k := by
  constructor
  · exact h.leads k
  · rintro ⟨j, hchain, hj⟩
    -- from the end of the chain, where there is a mark, back to its start
    induction hchain using Relation.ReflTransGen.head_induction_on with
    | refl => exact h.performs j hj
    | head hcall _ ih => exact hclosed _ _ hcall ih

/-- Marks of one list of functions are alike if the same ones are set. -/
theorem marks_ext {marks' : Array Bool} (hsize : marks.size = marks'.size)
    (h : ∀ k : FuncId, marks[k]? = some true ↔ marks'[k]? = some true) : marks = marks' := by
  refine Array.ext hsize (fun k hk hk' => ?_)
  have hset := h k
  rw [Array.getElem?_eq_getElem hk, Array.getElem?_eq_getElem hk', Option.some.injEq,
    Option.some.injEq] at hset
  exact Bool.eq_iff_iff.mpr hset

-- ============================================================================
-- All functions at once
-- ============================================================================

theorem adds_spread (hsize : marks.size = functions.size) :
    Adds functions marks (spread functions marks) where
  size_eq := (size_spread marks).trans hsize.symm
  keeps := fun _ hk => getElem?_spread_of_marked hsize hk
  calls := by
    intro k hk
    obtain ⟨f, hf⟩ := exists_function (size_spread marks) hk
    rw [getElem?_spread hf, Option.some.injEq, Bool.or_eq_true] at hk
    rcases hk with hk | hk
    · refine Or.inl ?_
      simpa [Array.getD_eq_getD_getElem?, Option.getD_eq_iff] using hk
    · exact Or.inr ((calls_marked_iff hf).mpr hk)

theorem within_close {n : Nat} (h : Within functions marks) :
    Within functions (close functions n marks) := by
  induction n generalizing marks with
  | zero => exact h
  | succ n ih =>
    rw [close]
    split
    · exact h
    · exact ih (h.adds (adds_spread h.size_eq))

/-- Marks that spreading does not change are closed under calls. -/
theorem closed_of_spread (hfix : spread functions marks = marks) (hcall : Calls functions k j)
    (hj : marks[j]? = some true) : marks[k]? = some true := by
  obtain ⟨f, -, -, hf, -⟩ := id hcall
  rw [← hfix, getElem?_spread hf, (calls_marked_iff hf).mp ⟨j, hcall, hj⟩, Bool.or_true]

theorem within_marks (functions : Array Function) : Within functions (Effects.marks functions) :=
  within_close (within_direct functions)

theorem marks_exact (functions : Array Function) (k : FuncId) :
    (Effects.marks functions)[k]? = some true ↔ Leads functions k :=
  (within_marks functions).exact (fun _ _ => closed_of_spread (spread_marks functions))

/-- Marks that were spread until nothing was left to add are the ones. -/
theorem Within.eq_marks (h : Within functions marks)
    (hclosed : ∀ k j, Calls functions k j → marks[j]? = some true → marks[k]? = some true) :
    marks = Effects.marks functions :=
  marks_ext (h.size_eq.trans (within_marks functions).size_eq.symm)
    (fun k => (h.exact hclosed).trans (marks_exact functions k).symm)

/-- More rounds than there are functions make no difference. -/
theorem close_eq_marks {n : Nat} (hn : functions.size ≤ n) :
    close functions n (direct functions) = Effects.marks functions := by
  have hfix : spread functions (close functions n (direct functions)) =
      close functions n (direct functions) :=
    spread_close size_direct (Nat.le_trans (unmarked_direct_le functions) hn)
  exact (within_close (within_direct functions)).eq_marks (fun _ _ => closed_of_spread hfix)

-- ============================================================================
-- One function after the other
-- ============================================================================

/-- Marks one function in place, if it calls a marked one. -/
def visit (functions : Array Function) (marks : Array Bool) (k : FuncId) : Array Bool :=
  match functions[k]? with
  | some f =>
    if !marks.getD k false && f.code.any (Instr.callsMarked marks) then marks.setIfInBounds k true
    else marks
  | none => marks

/-- Visits functions in an order. Each visit sees the marks that those before it made. -/
def sweep (functions : Array Function) (order : List FuncId) (marks : Array Bool) : Array Bool :=
  order.foldl (visit functions) marks

/-- Sweeps until nothing changes, unless `n` sweeps are not enough for that. -/
def settle (functions : Array Function) (order : List FuncId) :
    (n : Nat) → (marks : Array Bool) → Option (Array Bool)
  | 0, _ => none
  | n + 1, marks =>
    let wider := sweep functions order marks
    if wider = marks then some marks else settle functions order n wider

theorem adds_visit (functions : Array Function) (marks : Array Bool) (k : FuncId) :
    Adds functions marks (visit functions marks k) := by
  have hsame : Adds functions marks marks := ⟨rfl, fun _ => id, fun _ => Or.inl⟩
  unfold visit
  split
  · next f hf =>
    split
    · next hcall =>
      rw [Bool.and_eq_true] at hcall
      refine ⟨Array.size_setIfInBounds, fun j hj => ?_, fun j hj => ?_⟩
      · rw [Array.getElem?_setIfInBounds]
        split
        · next hkj =>
          subst hkj
          rw [if_pos (Array.getElem?_eq_some_iff.mp hj).1]
        · exact hj
      · rw [Array.getElem?_setIfInBounds] at hj
        split at hj
        · next hkj => exact Or.inr (hkj ▸ (calls_marked_iff hf).mpr hcall.2)
        · exact Or.inl hj
    · exact hsame
  · exact hsame

section Sweep

variable {order : List FuncId}

theorem size_sweep : (sweep functions order marks).size = marks.size := by
  induction order generalizing marks with
  | nil => rfl
  | cons k order ih =>
    have hrest : (sweep functions order (visit functions marks k)).size =
        (visit functions marks k).size := ih
    exact hrest.trans (adds_visit functions marks k).size_eq

theorem getElem?_sweep_of_marked (hj : marks[j]? = some true) :
    (sweep functions order marks)[j]? = some true := by
  induction order generalizing marks with
  | nil => exact hj
  | cons k order ih => exact ih ((adds_visit functions marks k).keeps j hj)

theorem within_sweep (h : Within functions marks) :
    Within functions (sweep functions order marks) := by
  induction order generalizing marks with
  | nil => exact h
  | cons k order ih => exact ih (h.adds (adds_visit functions marks k))

/-- No visit of a sweep that changes nothing changes anything: what a visit has marked
would stay marked. -/
theorem visit_of_sweep (hfix : sweep functions order marks = marks) (hk : k ∈ order) :
    visit functions marks k = marks := by
  induction order with
  | nil => cases hk
  | cons l order ih =>
    have hrest : sweep functions order (visit functions marks l) = marks := hfix
    have hfirst : visit functions marks l = marks := by
      have hadds := adds_visit functions marks l
      refine marks_ext hadds.size_eq (fun j => ⟨fun hj => ?_, hadds.keeps j⟩)
      rw [← hrest]
      exact getElem?_sweep_of_marked hj
    rcases List.mem_cons.mp hk with rfl | hk
    · exact hfirst
    · rw [hfirst] at hrest
      exact ih hrest hk

/-- Marks that no visit changes are closed under calls. -/
theorem closed_of_visit (hsize : marks.size = functions.size)
    (hfix : visit functions marks k = marks) (hcall : Calls functions k j)
    (hj : marks[j]? = some true) : marks[k]? = some true := by
  obtain ⟨f, -, -, hf, -⟩ := id hcall
  have hlt : k < marks.size := hsize ▸ (Array.getElem?_eq_some_iff.mp hf).1
  have hmarked : f.code.any (Instr.callsMarked marks) = true :=
    (calls_marked_iff hf).mp ⟨j, hcall, hj⟩
  cases hold : marks.getD k false with
  | true => simpa [Array.getD_eq_getD_getElem?, Option.getD_eq_iff] using hold
  | false =>
    have hset : visit functions marks k = marks.setIfInBounds k true := by
      simp only [visit, hf, hold, hmarked, Bool.not_false, Bool.and_self, if_true]
    rw [← hfix, hset, Array.getElem?_setIfInBounds, if_pos rfl, if_pos hlt]

/-- A sweep that changes anything marks a function. -/
theorem unmarked_sweep_lt (hne : sweep functions order marks ≠ marks) :
    unmarked (sweep functions order marks) < unmarked marks := by
  refine count_false_lt ?_ (fun k hk => ?_) (fun h => hne (Array.ext' h))
  · rw [Array.length_toList, Array.length_toList, size_sweep]
  · rw [Array.getElem?_toList] at hk ⊢
    exact getElem?_sweep_of_marked hk

theorem settle_eq_some {n : Nat} (hall : ∀ k, k < functions.size → k ∈ order)
    (h : Within functions marks) (hn : unmarked marks < n) :
    settle functions order n marks = some (Effects.marks functions) := by
  induction n generalizing marks with
  | zero => omega
  | succ n ih =>
    rw [settle]
    split
    · next hfix =>
      refine congrArg some (h.eq_marks (fun k j hcall => ?_))
      obtain ⟨f, -, -, hf, -⟩ := id hcall
      have hk := hall k (Array.getElem?_eq_some_iff.mp hf).1
      exact closed_of_visit h.size_eq (visit_of_sweep hfix hk) hcall
    · next hne =>
      have hlt := unmarked_sweep_lt hne
      exact ih (within_sweep h) (by omega)

end Sweep

-- ============================================================================
-- Reachability
-- ============================================================================

/-- The marks are reachability along calls: a function is marked exactly if a chain of
calls leads from it, through functions that exist, to one that reads input or prints.
Spreading comes to an end by itself, so that more rounds make no difference, and so does
visiting the functions in place, in any order; it ends with the same marks. -/
theorem marks_are_reachability (functions : Array Function) :
    ((Effects.marks functions).size = functions.size ∧
      ∀ k : FuncId, (Effects.marks functions)[k]? = some true ↔
        ∃ j, Relation.ReflTransGen (Calls functions) k j ∧ Performs functions j) ∧
    (∀ n, functions.size ≤ n → close functions n (direct functions) = Effects.marks functions) ∧
    ∀ order : List FuncId, (∀ k, k < functions.size → k ∈ order) →
      ∀ n, functions.size < n →
        settle functions order n (direct functions) = some (Effects.marks functions) := by
  refine ⟨⟨(within_marks functions).size_eq, marks_exact functions⟩, fun n => close_eq_marks, ?_⟩
  intro order hall n hn
  refine settle_eq_some hall (within_direct functions) (Nat.lt_of_le_of_lt ?_ hn)
  exact unmarked_direct_le functions

/-- Two functions that call each other, one of which prints, and two that call themselves
or a function that is missing. -/
example : Effects.marks
    #[{ name := "ping", registers := 1, code := #[.call 0 1 [], .ret 0] },
      { name := "pong", registers := 1, code := #[.call 0 0 [], .print 0, .ret 0] },
      { name := "again", registers := 1, code := #[.call 0 2 [], .ret 0] },
      { name := "lost", registers := 1, code := #[.call 0 9 [], .ret 0] }] =
    #[true, true, false, false] := by decide +kernel

end Effects

end HotPath
