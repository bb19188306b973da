/-
  HotPath.Proofs.Trace.Normal

  What simplifying comes to. Sweeping goes on until a sweep leaves the number of operations
  as it was (`Op.Settles`), and it comes to that end, because every other sweep makes the
  operations fewer. Such a sweep has dropped nothing anywhere, so that its operations are in
  normal form (`Op.NormalForm`): no slot is copied to itself, and whatever a constant or a
  copy fills is read by some operation, at whatever depth the two are.

  A sweep leaves out constants and copies only (`Op.Thinned`), and none that a normal form
  could have kept (`Op.Thinned.pruneAll`). What is left is therefore the largest normal
  form that the operations have (`Trace.simplify_is_largest_normal_form`).
-/
import HotPath.Proofs.Trace.Paths

namespace HotPath

namespace Op

variable {used : List Slot} {op : Op} {xs ys zs ops : List Op}

-- ============================================================================
-- Sweeping until the count stays
-- ============================================================================

/-- Sweeping until a sweep leaves the number of operations as it was, with the number of
sweeps and the operations that are left. -/
inductive Settles : Nat → List Op → List Op → Prop where
  | last {ops : List Op} (h : countAll (sweep ops) = countAll ops) : Settles 1 ops (sweep ops)
  | again {n : Nat} {ops ops' : List Op} (h : countAll (sweep ops) ≠ countAll ops)
    (hrest : Settles n (sweep ops) ops') : Settles (n + 1) ops ops'

/-- With more sweeps allowed than there are operations, the limit is never met. -/
theorem exists_settles {n : Nat} (hn : countAll ops < n) :
    ∃ k ≤ countAll ops + 1, Settles k ops (settle n ops) := by
  induction n generalizing ops with
  | zero => omega
  | succ n ih =>
    have hle : countAll (sweep ops) ≤ countAll ops := countAll_pruneAll_le ops
    rw [settle]
    split
    · next heq => exact ⟨1, by omega, .last heq⟩
    · next hne =>
      have hlt : countAll (sweep ops) < countAll ops := by omega
      obtain ⟨k, hk, hrest⟩ := ih (Nat.lt_of_lt_of_le hlt (Nat.le_of_lt_succ hn))
      exact ⟨k + 1, by omega, .again hne hrest⟩

/-- The last sweep drops nothing, and neither would another one. -/
theorem Settles.sweep_eq {n : Nat} (h : Settles n ops xs) : sweep xs = xs := by
  induction h with
  | @last ops heq =>
    have hsame : sweep ops = ops := (allUseful_of_countAll_eq ops heq).2
    rw [hsame, hsame]
  | again _ _ ih => exact ih

theorem settle_eq_self {n : Nat} (h : sweep ops = ops) : settle n ops = ops := by
  cases n with
  | zero => rfl
  | succ n => rw [settle, h, if_pos rfl]

-- ============================================================================
-- Normal forms
-- ============================================================================

/-- No operation copies a slot to itself, and some operation reads what a constant or a
copy fills. Nested operations count on both sides. -/
structure NormalForm (ops : List Op) : Prop where
  notSelf : ∀ s, .copy s s ∉ nestedAll ops
  constRead : ∀ dst value, .const dst value ∈ nestedAll ops →
    ∃ op ∈ nestedAll ops, dst ∈ op.reads
  copyRead : ∀ dst src, .copy dst src ∈ nestedAll ops → ∃ op ∈ nestedAll ops, dst ∈ op.reads

mutual

theorem mem_uses {s : Slot} : (op : Op) → (s ∈ op.uses ↔
    ∃ x ∈ op.nested, (∀ r, x ≠ .copy r r) ∧ s ∈ x.reads)
  | .branch cond thenOps elseOps => by
    simp only [uses, nested, List.mem_append, mem_usesAll thenOps, mem_usesAll elseOps,
      List.mem_cons, or_and_right, exists_or, exists_eq_left]
    simp [reads, or_assoc]
  | .copy dst src => by
    by_cases h : dst = src
    · simp [uses, nested, h]
    · have hne : ∀ r, Op.copy dst src ≠ .copy r r := by
        rintro r hr
        cases hr
        exact h rfl
      simp [uses, nested, reads, h, hne]
  | .const .. | .input _ | .binary .. | .print _ | .alloc .. | .call .. | .getField ..
  | .guard .. | .exit _ => by simp [uses, nested, reads]

/-- The slots that are used are those which an operation reads, copies of a slot to itself
apart. -/
theorem mem_usesAll {s : Slot} : (ops : List Op) → (s ∈ usesAll ops ↔
    ∃ x ∈ nestedAll ops, (∀ r, x ≠ .copy r r) ∧ s ∈ x.reads)
  | [] => by simp [usesAll, nestedAll]
  | op :: ops => by
    simp only [usesAll, nestedAll, List.mem_append, mem_uses op, mem_usesAll ops, or_and_right,
      exists_or]

end

mutual

theorem IsUseful.isKept : (op : Op) → op.IsUseful used → ∀ x ∈ op.nested, x.isKept used = true
  | .branch cond thenOps elseOps, h => by
    intro x hx
    rcases List.mem_cons.mp hx with rfl | hx
    · rfl
    · rcases List.mem_append.mp hx with hx | hx
      · exact AllUseful.isKept thenOps h.1 x hx
      · exact AllUseful.isKept elseOps h.2 x hx
  | .const dst value, h => by simpa [nested, Op.isKept, IsUseful] using h
  | .copy dst src, h => by simpa [nested, Op.isKept, IsUseful] using h
  | .input _, _ | .binary .., _ | .print _, _ | .alloc .., _ | .call .., _ | .getField .., _
  | .guard .., _ | .exit _, _ => by simp [nested, Op.isKept]

/-- Useful operations are kept, nested ones included. -/
theorem AllUseful.isKept : (ops : List Op) → AllUseful used ops →
    ∀ x ∈ nestedAll ops, x.isKept used = true
  | [], _ => fun x hx => by cases hx
  | op :: ops, h => fun x hx => by
    rcases List.mem_append.mp hx with hx | hx
    · exact IsUseful.isKept op h.1 x hx
    · exact AllUseful.isKept ops h.2 x hx

end

/-- A normal form is what a sweep keeps as a whole. -/
theorem normalForm_iff :
    NormalForm ops ↔ ∀ op ∈ nestedAll ops, op.isKept (usesAll ops) = true := by
  constructor
  · rintro ⟨hself, hconst, hcopy⟩ op hop
    have hused : ∀ {s}, (∃ x ∈ nestedAll ops, s ∈ x.reads) → s ∈ usesAll ops := by
      rintro s ⟨x, hx, hs⟩
      refine (mem_usesAll ops).mpr ⟨x, hx, ?_, hs⟩
      rintro r rfl
      exact hself r hx
    cases op with
    | const dst value => simpa [isKept] using hused (hconst dst value hop)
    | copy dst src =>
      have hne : dst ≠ src := by
        rintro rfl
        exact hself dst hop
      simpa [isKept, hne] using hused (hcopy dst src hop)
    | _ => rfl
  · intro h
    have hread : ∀ {s}, s ∈ usesAll ops → ∃ x ∈ nestedAll ops, s ∈ x.reads := by
      intro s hs
      obtain ⟨x, hx, -, hread⟩ := (mem_usesAll ops).mp hs
      exact ⟨x, hx, hread⟩
    refine ⟨fun s hs => ?_, fun dst value hop => ?_, fun dst src hop => ?_⟩
    · simpa [isKept] using h _ hs
    · exact hread (by simpa [isKept] using h _ hop)
    · have hkept : dst ≠ src ∧ dst ∈ usesAll ops := by simpa [isKept] using h _ hop
      exact hread hkept.2

/-- What a sweep leaves as it is is in normal form. -/
theorem normalForm_of_sweep (h : sweep ops = ops) : NormalForm ops :=
  normalForm_iff.mpr (AllUseful.isKept ops (allUseful_of_countAll_eq ops (congrArg _ h)).1)

-- ============================================================================
-- Leaving out constants and copies
-- ============================================================================

/-- Operations with some of the constants and copies left out, at any depth. -/
inductive Thinned : List Op → List Op → Prop where
  | nil : Thinned [] []
  | keep {op : Op} {xs ys : List Op}
    (hop : ∀ cond thenOps elseOps, op ≠ .branch cond thenOps elseOps) (h : Thinned xs ys) :
    Thinned (op :: xs) (op :: ys)
  | branch {cond : Operand} {thenOps thenOps' elseOps elseOps' xs ys : List Op}
    (ht : Thinned thenOps thenOps') (he : Thinned elseOps elseOps') (h : Thinned xs ys) :
    Thinned (.branch cond thenOps elseOps :: xs) (.branch cond thenOps' elseOps' :: ys)
  | const {dst : Slot} {value : Value} {xs ys : List Op} (h : Thinned xs ys) :
    Thinned (.const dst value :: xs) ys
  | copy {dst src : Slot} {xs ys : List Op} (h : Thinned xs ys) : Thinned (.copy dst src :: xs) ys

theorem prune_eq_self (hop : ∀ cond thenOps elseOps, op ≠ .branch cond thenOps elseOps) :
    op.prune used = op := by
  cases op with
  | branch cond thenOps elseOps => exact absurd rfl (hop cond thenOps elseOps)
  | _ => rfl

mutual

theorem Thinned.prune {rest rest' : List Op} : (op : Op) → Thinned rest rest' →
    Thinned (op :: rest) (op.prune used :: rest')
  | .branch cond thenOps elseOps, h =>
    .branch (thinned_pruneAll thenOps) (thinned_pruneAll elseOps) h
  | .const .., h | .copy .., h | .input _, h | .binary .., h | .print _, h | .alloc .., h
  | .call .., h | .getField .., h | .guard .., h | .exit _, h => .keep (fun _ _ _ => by simp) h

/-- Pruning leaves out constants and copies only. -/
theorem thinned_pruneAll : (ops : List Op) → Thinned ops (pruneAll used ops)
  | [] => .nil
  | op :: ops => by
    have hrest : Thinned ops (pruneAll used ops) := thinned_pruneAll ops
    rw [pruneAll]
    split
    · exact Thinned.prune op hrest
    · next hdrop =>
      cases op with
      | const => exact .const hrest
      | copy => exact .copy hrest
      | _ => exact absurd rfl hdrop

end

theorem Thinned.trans (h : Thinned xs ys) (h' : Thinned ys zs) : Thinned xs zs := by
  induction h generalizing zs with
  | nil => exact h'
  | keep hop _ ih =>
    cases h' with
    | keep _ h' => exact .keep hop (ih h')
    | branch => exact absurd rfl (hop _ _ _)
    | const h' => exact .const (ih h')
    | copy h' => exact .copy (ih h')
  | branch _ _ _ iht ihe ih =>
    cases h' with
    | keep hop => exact absurd rfl (hop _ _ _)
    | branch ht he h' => exact .branch (iht ht) (ihe he) (ih h')
  | const _ ih => exact .const (ih h')
  | copy _ ih => exact .copy (ih h')

theorem Settles.thinned {n : Nat} (h : Settles n ops xs) : Thinned ops xs := by
  induction h with
  | @last ops => exact thinned_pruneAll ops
  | @again _ ops _ _ _ ih => exact (thinned_pruneAll ops).trans ih

/-- What is left out is not read any more, and nothing else changes. -/
theorem Thinned.usesAll_subset (h : Thinned xs ys) : usesAll ys ⊆ usesAll xs := by
  induction h with
  | nil => exact List.Subset.refl _
  | keep _ _ ih =>
    rw [usesAll, usesAll]
    exact List.append_subset.mpr
      ⟨List.subset_append_left _ _, List.Subset.trans ih (List.subset_append_right _ _)⟩
  | branch _ _ _ iht ihe ih =>
    intro s hs
    simp only [usesAll, uses, List.mem_append] at hs ⊢
    rcases hs with ((hs | hs) | hs) | hs
    · exact Or.inl (Or.inl (Or.inl hs))
    · exact Or.inl (Or.inl (Or.inr (iht hs)))
    · exact Or.inl (Or.inr (ihe hs))
    · exact Or.inr (ih hs)
  | const _ ih => exact List.Subset.trans ih (List.subset_append_right _ _)
  | copy _ ih => exact List.Subset.trans ih (List.subset_append_right _ _)

theorem isKept_mono {used' : List Slot} (hsub : used ⊆ used') (h : op.isKept used = true) :
    op.isKept used' = true := by
  cases op with
  | const dst value =>
    have hdst : dst ∈ used := by simpa [isKept] using h
    simpa [isKept] using hsub hdst
  | copy dst src =>
    have hboth : dst ≠ src ∧ dst ∈ used := by simpa [isKept] using h
    simpa [isKept] using And.intro hboth.1 (hsub hboth.2)
  | _ => rfl

/-- Pruning leaves out no more than one that leaves everything worth keeping. -/
theorem Thinned.pruneAll (h : Thinned xs ys)
    (hkept : ∀ op ∈ nestedAll ys, op.isKept used = true) : Thinned (Op.pruneAll used xs) ys := by
  induction h with
  | nil => exact .nil
  | @keep op xs ys hop h ih =>
    have hrest := ih (fun x hx => hkept x (List.mem_append_right _ hx))
    have hkeep : op.isKept used = true := hkept op (List.mem_append_left _ (mem_nested_self op))
    rw [Op.pruneAll, if_pos hkeep, prune_eq_self hop]
    exact .keep hop hrest
  | @branch cond thenOps _ elseOps _ _ _ ht he h iht ihe ih =>
    have hkeep : (Op.branch cond thenOps elseOps).isKept used = true := rfl
    simp only [nestedAll, nested, List.mem_append, List.mem_cons] at hkept
    rw [Op.pruneAll, if_pos hkeep, Op.prune]
    exact .branch (iht (fun x hx => hkept x (Or.inl (Or.inr (Or.inl hx)))))
      (ihe (fun x hx => hkept x (Or.inl (Or.inr (Or.inr hx)))))
      (ih (fun x hx => hkept x (Or.inr hx)))
  | const h ih =>
    rw [Op.pruneAll]
    split
    · exact .const (ih hkept)
    · exact ih hkept
  | copy h ih =>
    rw [Op.pruneAll]
    split
    · exact .copy (ih hkept)
    · exact ih hkept

/-- Sweeping stays above every normal form below it. -/
theorem Thinned.sweep (h : Thinned xs ys) (hy : NormalForm ys) : Thinned (Op.sweep xs) ys :=
  h.pruneAll (fun op hop => isKept_mono h.usesAll_subset (normalForm_iff.mp hy op hop))

theorem Settles.thinned_of_normalForm {n : Nat} (h : Settles n ops xs) (hthin : Thinned ops ys)
    (hy : NormalForm ys) : Thinned xs ys := by
  induction h with
  | last => exact hthin.sweep hy
  | again _ _ ih => exact ih (hthin.sweep hy)

end Op

-- ============================================================================
-- Whole traces
-- ============================================================================

namespace Trace

/-- Simplifying comes to its end by itself, after no more sweeps than there are operations
and one more, and once is enough. It leaves out constants and copies only, at any depth, and
what is left is in normal form. It is the largest such: whoever leaves out constants and
copies and comes to a normal form has left out all that simplifying does. -/
theorem simplify_is_largest_normal_form (t : Trace) :
    (∃ n ≤ t.opCount + 1, Op.Settles n t.ops t.simplify.ops) ∧
    t.simplify.simplify = t.simplify ∧
    Op.Thinned t.ops t.simplify.ops ∧ Op.NormalForm t.simplify.ops ∧
    ∀ ops, Op.Thinned t.ops ops → Op.NormalForm ops → Op.Thinned t.simplify.ops ops := by
  obtain ⟨n, hn, hsettles⟩ : ∃ n ≤ t.opCount + 1, Op.Settles n t.ops t.simplify.ops :=
    Op.exists_settles (Nat.lt_succ_self _)
  have hfix : Op.sweep t.simplify.ops = t.simplify.ops := hsettles.sweep_eq
  have hsame : Op.simplify t.simplify.ops = t.simplify.ops := Op.settle_eq_self hfix
  refine ⟨⟨n, hn, hsettles⟩, congrArg (fun ops => { t.simplify with ops := ops }) hsame,
    hsettles.thinned, Op.normalForm_of_sweep hfix, fun ops hthin hops => ?_⟩
  exact hsettles.thinned_of_normalForm hthin hops

/-- Two copies that read each other stay, and a chain that nothing reads goes from its end. -/
example :
    Op.simplify [.copy 1 2, .branch (.slot 0) [.copy 2 1] [.const 3 .nil, .copy 4 3]] =
      [.copy 1 2, .branch (.slot 0) [.copy 2 1] []] := rfl

end Trace

end HotPath
