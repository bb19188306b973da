/-
  HotPath.Proofs.Program.Effects

  The marks of functions with effects are closed: a function that is not marked
  neither reads input nor prints, and calls no marked function
  (`Program.isIo_eq_false`, `Program.hasEffects_callee`).

  Spreading only adds marks, so a round that changes anything leaves fewer
  functions unmarked. There are no more rounds than functions, and that is enough
  (`Effects.spread_marks`).
-/
import HotPath.Program.Basic

namespace HotPath

namespace Effects

variable {functions : Array Function}

-- ============================================================================
-- One round
-- ============================================================================

@[simp] theorem size_direct : (direct functions).size = functions.size := Array.size_map

@[simp] theorem size_spread (marks : Array Bool) : (spread functions marks).size = functions.size :=
  Array.size_mapIdx

theorem getElem?_direct {k : FuncId} {f : Function} (hf : functions[k]? = some f) :
    (direct functions)[k]? = some (f.code.any Instr.isIo) := by
  rw [direct, Array.getElem?_map, hf, Option.map_some]

theorem getElem?_spread {k : FuncId} {f : Function} (hf : functions[k]? = some f)
    (marks : Array Bool) : (spread functions marks)[k]? =
      some (marks.getD k false || f.code.any (Instr.callsMarked marks)) := by
  rw [spread, Array.getElem?_mapIdx, hf, Option.map_some]

/-- A mark stays where it is. -/
theorem getElem?_spread_of_marked {marks : Array Bool} (hsize : marks.size = functions.size)
    {k : FuncId} (hk : marks[k]? = some true) : (spread functions marks)[k]? = some true := by
  obtain ⟨hlt, -⟩ := Array.getElem?_eq_some_iff.mp hk
  have hf : functions[k]? = some functions[k] := Array.getElem?_eq_getElem (hsize ▸ hlt)
  rw [getElem?_spread hf, Array.getD_eq_getD_getElem?, hk]
  rfl

-- ============================================================================
-- All rounds
-- ============================================================================

/-- The number of functions without a mark. -/
def unmarked (marks : Array Bool) : Nat := marks.toList.count false

/-- Marks that are added leave fewer places unmarked. -/
theorem count_false_lt {xs ys : List Bool} (hlen : ys.length = xs.length)
    (hadds : ∀ k : Nat, xs[k]? = some true → ys[k]? = some true) (hne : ys ≠ xs) :
    ys.count false < xs.count false := by
  induction xs generalizing ys with
  | nil => exact absurd (List.length_eq_zero_iff.mp hlen) hne
  | cons x xs ih =>
    cases ys with
    | nil => cases hlen
    | cons y ys =>
      have hlen' : ys.length = xs.length := Nat.succ.inj hlen
      have hadds' : ∀ k : Nat, xs[k]? = some true → ys[k]? = some true := fun k => hadds (k + 1)
      by_cases htail : ys = xs
      · -- only the first place differs, so it is the one that was marked
        subst htail
        have hhead : y ≠ x := fun h => hne (h ▸ rfl)
        have hfirst : x = true → y = true := by simpa using hadds 0
        cases x with
        | true => exact absurd (hfirst rfl) hhead
        | false =>
          cases y with
          | true => simp
          | false => exact absurd rfl hhead
      · have hlt := ih hlen' hadds' htail
        have hfirst : x = true → y = true := by simpa using hadds 0
        cases x with
        | true => simp [hfirst rfl, hlt]
        | false =>
          cases y with
          | true =>
            have hmarked : (true :: ys).count false = ys.count false := by simp
            rw [hmarked, List.count_cons_self]
            omega
          | false => simpa using hlt

/-- A round that changes anything marks a function. -/
theorem unmarked_spread_lt {marks : Array Bool} (hsize : marks.size = functions.size)
    (hne : spread functions marks ≠ marks) :
    unmarked (spread functions marks) < unmarked marks := by
  refine count_false_lt ?_ ?_ ?_
  · rw [Array.length_toList, Array.length_toList, size_spread, hsize]
  · intro k hk
    rw [Array.getElem?_toList] at hk ⊢
    exact getElem?_spread_of_marked hsize hk
  · exact fun h => hne (Array.ext' h)

/-- As many rounds as there are unmarked functions are enough. -/
theorem spread_close {n : Nat} {marks : Array Bool} (hsize : marks.size = functions.size)
    (hn : unmarked marks ≤ n) :
    spread functions (close functions n marks) = close functions n marks := by
  induction n generalizing marks with
  | zero =>
    by_cases hfix : spread functions marks = marks
    · exact hfix
    · have hlt := unmarked_spread_lt hsize hfix
      omega
  | succ n ih =>
    rw [close]
    by_cases hfix : spread functions marks = marks
    · rw [if_pos hfix]
      exact hfix
    · rw [if_neg hfix]
      have hlt := unmarked_spread_lt hsize hfix
      exact ih (size_spread marks) (by omega)

theorem unmarked_direct_le (functions : Array Function) :
    unmarked (direct functions) ≤ functions.size := by
  have hcount : unmarked (direct functions) ≤ (direct functions).toList.length :=
    List.count_le_length
  rwa [Array.length_toList, size_direct] at hcount

/-- Spreading changes the marks no more. -/
theorem spread_marks (functions : Array Function) :
    spread functions (marks functions) = marks functions :=
  spread_close size_direct (unmarked_direct_le functions)

theorem getElem?_close_of_marked {n : Nat} {marks : Array Bool}
    (hsize : marks.size = functions.size) {k : FuncId} (hk : marks[k]? = some true) :
    (close functions n marks)[k]? = some true := by
  induction n generalizing marks with
  | zero => exact hk
  | succ n ih =>
    rw [close]
    split
    · exact hk
    · exact ih (size_spread marks) (getElem?_spread_of_marked hsize hk)

end Effects

-- ============================================================================
-- Functions without effects
-- ============================================================================

namespace Program

variable {p : Program} {g : FuncId} {fn : Function} {i : Instr} {pc : Nat}

theorem hasEffects_eq (p : Program) (g : FuncId) :
    p.hasEffects g = (Effects.marks p.functions).getD g false := by
  rw [hasEffects, p.facts_eq]
  rfl

/-- A function without effects has no instruction that reads input or prints. -/
theorem isIo_eq_false (hfn : p.functions[g]? = some fn) (hg : p.hasEffects g = false)
    (hi : fn.code[pc]? = some i) : i.isIo = false := by
  have hdirect := Effects.getElem?_direct hfn
  cases hany : fn.code.any Instr.isIo with
  | false =>
    obtain ⟨hlt, rfl⟩ := Array.getElem?_eq_some_iff.mp hi
    simpa using Array.any_eq_false.mp hany pc hlt
  | true =>
    rw [hany] at hdirect
    have hmark : (Effects.marks p.functions)[g]? = some true :=
      Effects.getElem?_close_of_marked Effects.size_direct hdirect
    rw [hasEffects_eq, Array.getD_eq_getD_getElem?, hmark] at hg
    cases hg

/-- A function without effects calls only functions without effects. -/
theorem hasEffects_callee (hfn : p.functions[g]? = some fn) (hg : p.hasEffects g = false)
    {dst : Reg} {func : FuncId} {args : List Reg} (hi : fn.code[pc]? = some (.call dst func args)) :
    p.hasEffects func = false := by
  have hclosed := Effects.getElem?_spread hfn (Effects.marks p.functions)
  rw [Effects.spread_marks] at hclosed
  rw [hasEffects_eq, Array.getD_eq_getD_getElem?, hclosed, Option.getD_some,
    Bool.or_eq_false_iff] at hg
  obtain ⟨hlt, hcall⟩ := Array.getElem?_eq_some_iff.mp hi
  have hnot := Array.any_eq_false.mp hg.2 pc hlt
  rw [hcall] at hnot
  rw [hasEffects_eq]
  simpa [Instr.callsMarked] using hnot

end Program

end HotPath
