/-
  HotPath.Proofs.Region.Arms

  What a walk leaves behind in the arms of a split. A split with an allocating arm is not
  walked twice, and whether an arm allocates was found out beforehand, by a search of the
  code (`Function.armsAllocate`). Where the walk of the arms stays in what was searched
  (`Program.SplitsEnclose`), no operation inside of a branch makes a tuple
  (`Region.committed_branches_are_bare`).

  In general the walk does not: `Region.committed_branches_allocate` has a tuple behind a
  merge point that does nothing, and one behind the join of a split around another.
-/
import HotPath.Proofs.Region.Course

namespace HotPath

-- ============================================================================
-- Operations
-- ============================================================================

namespace Op

/-- No operation makes a tuple, nested ones included. -/
def Bare (ops : List Op) : Prop := ∀ op ∈ nestedAll ops, op.isAlloc = false

/-- No operation inside of a branch makes a tuple. -/
def BareInside (ops : List Op) : Prop :=
  ∀ cond thenOps elseOps, .branch cond thenOps elseOps ∈ nestedAll ops →
    Bare thenOps ∧ Bare elseOps

theorem nestedAll_append (xs ys : List Op) :
    nestedAll (xs ++ ys) = nestedAll xs ++ nestedAll ys := by
  induction xs with
  | nil => rfl
  | cons x xs ih => rw [List.cons_append, nestedAll, nestedAll, ih, List.append_assoc]

theorem mem_nestedAll {op : Op} {ops : List Op} (h : op ∈ ops) : op ∈ nestedAll ops := by
  obtain ⟨before, after, rfl⟩ := List.append_of_mem h
  rw [nestedAll_append]
  exact List.mem_append_right _ (List.mem_append_left _ (mem_nested_self op))

theorem nestedAll_singleton (op : Op) : nestedAll [op] = nested op := List.append_nil _

mutual

/-- What is nested in a nested operation is nested. -/
theorem nested_subset {x : Op} : (op : Op) → x ∈ nested op → nested x ⊆ nested op
  | .branch cond thenOps elseOps, h => by
    rcases List.mem_cons.mp h with rfl | h
    · exact List.Subset.refl _
    · refine List.Subset.trans ?_ (List.subset_cons_self _ _)
      rcases List.mem_append.mp h with h | h
      · exact List.Subset.trans (nestedAll_subset thenOps h) (List.subset_append_left _ _)
      · exact List.Subset.trans (nestedAll_subset elseOps h) (List.subset_append_right _ _)
  | .const .., h | .copy .., h | .binary .., h | .input _, h | .print _, h | .alloc .., h
  | .getField .., h | .call .., h | .guard .., h | .exit _, h => by
    rw [List.mem_singleton.mp h]
    exact List.Subset.refl _

theorem nestedAll_subset {x : Op} :
    (ops : List Op) → x ∈ nestedAll ops → nested x ⊆ nestedAll ops
  | [], h => by cases h
  | op :: ops, h => by
    rcases List.mem_append.mp h with h | h
    · exact List.Subset.trans (nested_subset op h) (List.subset_append_left _ _)
    · exact List.Subset.trans (nestedAll_subset ops h) (List.subset_append_right _ _)

end

variable {xs ys : List Op} {op : Op}

theorem bare_nil : Bare [] := fun _ hop => by cases hop

theorem Bare.append (hx : Bare xs) (hy : Bare ys) : Bare (xs ++ ys) := by
  intro op hop
  rw [nestedAll_append] at hop
  rcases List.mem_append.mp hop with hop | hop
  · exact hx op hop
  · exact hy op hop

theorem bare_singleton (hnested : op.nested = [op]) (halloc : op.isAlloc = false) : Bare [op] := by
  intro x hx
  rw [nestedAll_singleton, hnested] at hx
  rw [List.mem_singleton.mp hx]
  exact halloc

theorem bare_of_forall (h : ∀ op ∈ xs, op.nested = [op] ∧ op.isAlloc = false) : Bare xs := by
  induction xs with
  | nil => exact bare_nil
  | cons x xs ih =>
    obtain ⟨hnested, halloc⟩ := h x List.mem_cons_self
    have hrest := ih (fun op hop => h op (List.mem_cons_of_mem x hop))
    exact (bare_singleton hnested halloc).append hrest

theorem bare_branch {cond : Operand} (hx : Bare xs) (hy : Bare ys) :
    Bare [.branch cond xs ys] := by
  intro op hop
  rw [nestedAll_singleton] at hop
  rcases List.mem_cons.mp hop with rfl | hop
  · rfl
  · rcases List.mem_append.mp hop with hop | hop
    · exact hx op hop
    · exact hy op hop

theorem bareInside_nil : BareInside [] := fun _ _ _ hop => by cases hop

theorem BareInside.append (hx : BareInside xs) (hy : BareInside ys) : BareInside (xs ++ ys) := by
  intro cond thenOps elseOps hop
  rw [nestedAll_append] at hop
  rcases List.mem_append.mp hop with hop | hop
  · exact hx cond thenOps elseOps hop
  · exact hy cond thenOps elseOps hop

/-- Bare operations are so inside of their branches as well. -/
theorem Bare.inside (h : Bare xs) : BareInside xs := by
  intro cond thenOps elseOps hop
  have hsub : nestedAll thenOps ++ nestedAll elseOps ⊆ nestedAll xs :=
    List.Subset.trans (List.subset_cons_self _ _) (nestedAll_subset xs hop)
  exact ⟨fun x hx => h x (hsub (List.mem_append_left _ hx)),
    fun x hx => h x (hsub (List.mem_append_right _ hx))⟩

theorem not_bareInside {cond : Operand} {dst : Slot} {fields : List Operand}
    {thenOps elseOps : List Op} (hbranch : .branch cond thenOps elseOps ∈ xs)
    (halloc : .alloc dst fields ∈ thenOps) : ¬ BareInside xs := by
  intro h
  cases (h cond thenOps elseOps (mem_nestedAll hbranch)).1 _ (mem_nestedAll halloc)

theorem nested_of_isPlain (h : op.isPlain = true) : op.nested = [op] := by
  cases op with
  | branch | exit => cases h
  | _ => rfl

theorem bareInside_of_isPlain (h : op.isPlain = true) : BareInside [op] := by
  intro cond thenOps elseOps hop
  rw [nestedAll_singleton, nested_of_isPlain h] at hop
  rw [← List.mem_singleton.mp hop] at h
  cases h

end Op

namespace Region

open Op

variable {g : Guide} {r r₁ r₂ r' : Region} {i : Instr} {j : Bool}

-- ============================================================================
-- What a walk leaves behind
-- ============================================================================

/-- A walk has left operations behind that meet a condition. -/
def Adds (P : List Op → Prop) (r r' : Region) : Prop :=
  ∃ ops, r'.ops.toList = r.ops.toList ++ ops ∧ P ops

theorem Adds.append {P : List Op → Prop} (happend : ∀ {xs ys}, P xs → P ys → P (xs ++ ys))
    (h : Adds P r r₁) (h' : Adds P r₁ r') : Adds P r r' := by
  obtain ⟨xs, hxs, hx⟩ := h
  obtain ⟨ys, hys, hy⟩ := h'
  exact ⟨xs ++ ys, by rw [hys, hxs, List.append_assoc], happend hx hy⟩

theorem adds_of_ops_eq {P : List Op → Prop} (hnil : P []) (h : r'.ops = r.ops) : Adds P r r' :=
  ⟨[], by rw [h, List.append_nil], hnil⟩

theorem adds_of_push {P : List Op → Prop} {op : Op} (hop : P [op]) (h : r'.ops = r.ops.push op) :
    Adds P r r' :=
  ⟨[op], by rw [h, Array.toList_push], hop⟩

/-- What an instruction leaves behind, and where the walk goes on. -/
theorem step_on_eq_ok (h : r.step g i = .ok (.on r')) :
    (r'.ops = r.ops ∨ ∃ op, r'.ops = r.ops.push op ∧ op.isPlain = true ∧
      (op.isAlloc = true → i.isAlloc = true)) ∧
    (i.isMergePoint = false → r'.cursor ∈ i.successors r.cursor) ∧
    (i.isMergePoint = true → g.program.isDispatchPoint g.policy.loopHeadersOnly r.loc = false) := by
  cases treats_of_step h with
  | @compute i r₁ r' hi hc ha =>
    have hnext : r.cursor + 1 ∈ i.successors r.cursor := by
      cases i with
      | jump | branch | mergePoint | promote | ret => cases hi
      | _ => exact List.mem_singleton_self _
    have hmerge : i.isMergePoint = false := by
      cases i with
      | mergePoint => cases hi
      | _ => rfl
    rw [advance_eq_ok ha, hmerge]
    cases computed_of_compute hc with
    | known hlen => exact ⟨Or.inl rfl, fun _ => hnext, fun hm => by cases hm⟩
    | left hlen hplain halloc =>
      exact ⟨Or.inr ⟨_, rfl, hplain, halloc⟩, fun _ => hnext, fun hm => by cases hm⟩
  | jump => exact ⟨Or.inl rfl, fun _ => List.mem_singleton_self _, fun hm => by cases hm⟩
  | fold hb hv =>
    refine ⟨Or.inl rfl, fun _ => ?_, fun hm => by cases hm⟩
    show (if _ then _ else _) ∈ [_, _]
    split
    · exact List.mem_cons_self
    · exact List.mem_cons_of_mem _ (List.mem_singleton_self _)
  | pass hd ha =>
    rw [advance_eq_ok ha]
    exact ⟨Or.inl rfl, fun hm => (by cases hm), fun _ => hd⟩
  | skip ha =>
    rw [advance_eq_ok ha]
    exact ⟨Or.inl rfl, fun _ => List.mem_singleton_self _, fun hm => by cases hm⟩

theorem step_ends_eq_ok (h : r.step g i = .ok (.ends r')) :
    ∃ leave, r'.ops = r.ops.push (.exit leave) := by
  cases treats_of_step h with
  | arrive | promote | ret => exact ⟨_, rfl⟩

/-- Counting an instruction leaves nothing behind. -/
theorem Begins.adds {P : List Op → Prop} (hb : Begins g r r₁ i) (h : Adds P r₁ r') :
    Adds P r r' := by
  rw [tick_eq_ok hb.tick] at h
  exact h

theorem Begins.apart_after (hb : Begins g r r₁ i) : r₁.stopAt ≠ some r₁.cursor := by
  rw [tick_eq_ok hb.tick]
  exact hb.apart

theorem Adds.mono {P Q : List Op → Prop} (hPQ : ∀ {ops}, P ops → Q ops) (h : Adds P r r') :
    Adds Q r r' := by
  obtain ⟨ops, hops, hp⟩ := h
  exact ⟨ops, hops, hPQ hp⟩

theorem Adds.all {P : List Op → Prop} (h : Adds P r r') (hr : r.ops = #[]) : P r'.ops.toList := by
  obtain ⟨ops, hops, hp⟩ := h
  rw [hops, hr]
  exact hp

/-- Two bare arms make a bare branch. -/
theorem adds_of_rejoin {cond : Operand} {a b : Region} {thenJoined elseJoined goes : Bool}
    (ha : Bare a.ops.toList) (hb : Bare b.ops.toList)
    (hj : r.rejoin cond a b thenJoined elseJoined = .ok (goes, r')) : Adds Bare r r' := by
  obtain ⟨⟨thenOps, elseOps, hops, hmoves⟩, -⟩ := rejoin_eq_ok hj
  have hthen : Bare thenOps :=
    bare_of_forall (fun op hop => hmoves op (List.mem_append_left _ hop))
  have helse : Bare elseOps :=
    bare_of_forall (fun op hop => hmoves op (List.mem_append_right _ hop))
  exact adds_of_push (bare_branch (ha.append hthen) (hb.append helse)) hops

-- ============================================================================
-- Inside of a split
-- ============================================================================

section

variable {func : FuncId} {fn : Function} {pc elsePc elsePc' q : Nat} {join : Option Nat}
  {a b : Region}

/-- A region is in the arms of a split that is not marked, and will stop at its join. -/
structure InArms (g : Guide) (func : FuncId) (fn : Function) (pc elsePc : Nat) (r : Region) :
    Prop where
  func_eq : r.func = func
  place : fn.Arms pc elsePc r.stopAt r.cursor
  simple : fn.armsAllocate pc elsePc r.stopAt = false
  encloses : fn.Encloses (fun q => g.program.isDispatchPoint g.policy.loopHeadersOnly ⟨func, q⟩)
    pc elsePc r.stopAt

theorem InArms.of_stays (h : InArms g func fn pc elsePc r) (hs : r.Stays r')
    (hplace : fn.Arms pc elsePc r.stopAt r'.cursor) : InArms g func fn pc elsePc r' := by
  obtain ⟨hfunc, -, hsimple, hencloses⟩ := h
  rw [← hs.stopAt_eq] at hplace hsimple hencloses
  exact ⟨hs.func_eq.trans hfunc, hplace, hsimple, hencloses⟩

theorem Begins.inArms (hb : Begins g r r₁ i) (h : InArms g func fn pc elsePc r) :
    InArms g func fn pc elsePc r₁ := by
  refine h.of_stays hb.stays ?_
  rw [tick_eq_ok hb.tick]
  exact h.place

theorem code_of_instr? (hfn : g.program.functions[func]? = some fn) (hfunc : r.func = func)
    (hi : g.program.instr? r.loc = some i) : fn.code[r.cursor]? = some i := by
  subst hfunc
  exact (Program.instr?_of_function hfn).symm.trans hi

/-- The instructions in the arms make no tuples. -/
theorem InArms.not_isAlloc (h : InArms g func fn pc elsePc r) (hapart : r.stopAt ≠ some r.cursor)
    (hi : fn.code[r.cursor]? = some i) : i.isAlloc = false := by
  have halloc := h.place.not_allocatesAt hapart h.simple
  unfold Function.allocatesAt at halloc
  rw [hi] at halloc
  exact halloc

theorem InArms.next (h : InArms g func fn pc elsePc r) (hapart : r.stopAt ≠ some r.cursor)
    (hi : fn.code[r.cursor]? = some i) (hmerge : i.isMergePoint = false)
    (hq : q ∈ i.successors r.cursor) : fn.Arms pc elsePc r.stopAt q := by
  refine h.place.onward hapart ?_
  unfold Function.onward
  rw [hi]
  dsimp only
  rw [hmerge]
  exact hq

/-- A step in the arms leaves no tuple behind and does not lead out of them. -/
theorem InArms.step_on (h : InArms g func fn pc elsePc r) (hapart : r.stopAt ≠ some r.cursor)
    (hi : fn.code[r.cursor]? = some i) (hs : r.step g i = .ok (.on r')) :
    Adds Bare r r' ∧ InArms g func fn pc elsePc r' := by
  obtain ⟨hops, hnext, hpass⟩ := step_on_eq_ok hs
  refine ⟨?_, h.of_stays (stays_of_step_on hs) ?_⟩
  · rcases hops with hops | ⟨op, hops, hplain, halloc⟩
    · exact adds_of_ops_eq bare_nil hops
    · have hbare : op.isAlloc = false := by
        rw [Bool.eq_false_iff]
        exact fun hop => Bool.false_ne_true ((h.not_isAlloc hapart hi).symm.trans (halloc hop))
      exact adds_of_push (bare_singleton (nested_of_isPlain hplain) hbare) hops
  · cases hmerge : i.isMergePoint with
    | false => exact h.next hapart hi hmerge (hnext hmerge)
    | true =>
      -- A merge point in the arms is a dispatch point, and the walk would have ended.
      cases i with
      | mergePoint greens =>
        have hstop := h.encloses.mergePoints _ greens h.place hapart hi
        have hgoes := hpass hmerge
        rw [loc, h.func_eq] at hgoes
        exact absurd (hstop.symm.trans hgoes) (by decide)
      | _ => cases hmerge

/-- Both arms of a split that is not marked start in them. -/
theorem inArms_of_split {reg : Reg} (hfn : g.program.functions[func]? = some fn)
    (hnest : g.program.SplitsEnclose g.policy.loopHeadersOnly func) (hfunc : r.func = func)
    (hi : fn.code[r.cursor]? = some (.branch reg elsePc join))
    (hsimple : g.program.isAllocatingSplit r.loc = false) :
    InArms g func fn r.cursor elsePc (r.thenArm join) ∧
      ∀ a, InArms g func fn r.cursor elsePc (r.elseArm a elsePc join) := by
  subst hfunc
  have hbare : fn.armsAllocate r.cursor elsePc join = false :=
    (Program.isAllocatingSplit_eq hfn hi).symm.trans hsimple
  have hencloses := hnest fn _ reg _ _ hfn hi hbare
  exact ⟨⟨rfl, .start (List.mem_cons_of_mem _ (List.mem_singleton_self _)), hbare, hencloses⟩,
    fun _ => ⟨rfl, .start List.mem_cons_self, hbare, hencloses⟩⟩

/-- What is known of a walk of the arms: it leaves no tuple behind, and if it stops at the
join then control comes to the join in the arms. -/
structure Bares (fn : Function) (pc elsePc : Nat) (r : Region) (j : Bool) (r' : Region) :
    Prop where
  adds : Adds Bare r r'
  joins : j = true → r.stopAt = some r'.cursor ∧ fn.Arms pc elsePc r.stopAt r'.cursor

theorem Bares.after (hs : r.Stays r₁) (hadds : Adds Bare r r₁)
    (h : Bares fn pc elsePc r₁ j r') : Bares fn pc elsePc r j r' := by
  obtain ⟨hadds', hjoins⟩ := h
  rw [hs.stopAt_eq] at hjoins
  exact ⟨hadds.append Bare.append hadds', hjoins⟩

/-- Where the arms of a split inside of the arms of another have met, the walk is still in
the arms of the outer one. -/
theorem InArms.rejoin {reg : Reg} {cond : Operand} {thenJoined elseJoined : Bool}
    (h : InArms g func fn pc elsePc r) (hapart : r.stopAt ≠ some r.cursor)
    (hi : fn.code[r.cursor]? = some (.branch reg elsePc' join))
    (hsimple : fn.armsAllocate r.cursor elsePc' join = false)
    (ha : Bares fn r.cursor elsePc' (r.thenArm join) thenJoined a)
    (hb : Bares fn r.cursor elsePc' (r.elseArm a elsePc' join) elseJoined b)
    (hj : r.rejoin cond a b thenJoined elseJoined = .ok (true, r')) :
    InArms g func fn pc elsePc r' := by
  have hjoin : ∀ k, join = some k → fn.Arms r.cursor elsePc' join k →
      fn.Arms pc elsePc r.stopAt k := by
    rintro k rfl hk
    exact h.encloses.joins _ reg elsePc' k h.place hapart hi hsimple hk
  refine h.of_stays (stays_of_rejoin hj) ?_
  rcases (rejoin_eq_ok hj).2 rfl with ⟨hjoined, hcursor⟩ | ⟨hjoined, hcursor⟩
  · rw [hcursor]
    obtain ⟨hstop, hplace⟩ := ha.joins hjoined
    exact hjoin _ hstop hplace
  · rw [hcursor]
    obtain ⟨hstop, hplace⟩ := hb.joins hjoined
    exact hjoin _ hstop hplace

/-- A walk that starts in the arms of a split that is not marked leaves no tuple behind. -/
theorem Walks.bares (hfn : g.program.functions[func]? = some fn)
    (hnest : g.program.SplitsEnclose g.policy.loopHeadersOnly func) (hw : Walks g r j r')
    (h : InArms g func fn pc elsePc r) : Bares fn pc elsePc r j r' := by
  -- The split around the walk changes where the walk enters another one.
  induction hw generalizing pc elsePc with
  | joined hjoin => exact ⟨adds_of_ops_eq bare_nil rfl, fun _ => ⟨hjoin, h.place⟩⟩
  | ends hb hs =>
    obtain ⟨leave, hops⟩ := step_ends_eq_ok hs
    exact ⟨hb.adds (adds_of_push (bare_singleton rfl rfl) hops), fun hj => by cases hj⟩
  | on hb hs hw ih =>
    have h₁ := hb.inArms h
    obtain ⟨hadds, h₂⟩ := h₁.step_on hb.apart_after (code_of_instr? hfn h₁.func_eq hb.instr) hs
    exact (ih h₂).after (hb.stays.trans (stays_of_step_on hs)) (hb.adds hadds)
  | @keep r r₁ r' i cond elsePc' join taken j hb hs hw ih =>
    have h₁ := hb.inArms h
    obtain ⟨reg, -, rfl, -, -⟩ := step_split hs
    have hi := code_of_instr? hfn h₁.func_eq hb.instr
    have hkeep : r₁.Stays (r₁.keepArm cond taken elsePc') := ⟨rfl, rfl⟩
    have harm : (r₁.keepArm cond taken elsePc').cursor ∈ [elsePc', r₁.cursor + 1] := by
      cases taken with
      | true => exact List.mem_cons_of_mem _ (List.mem_singleton_self _)
      | false => exact List.mem_cons_self
    have h₂ := h₁.of_stays hkeep (h₁.next hb.apart_after hi rfl (List.mem_pair.mpr
      (List.mem_pair.mp harm).symm))
    exact (ih h₂).after (hb.stays.trans hkeep)
      (hb.adds (adds_of_push (bare_singleton rfl rfl) rfl))
  | @rejoin r r₁ r₂ r' a b i cond elsePc' join thenJoined elseJoined j hb hs hsimple ht he hj hw
      iht ihe ih =>
    have h₁ := hb.inArms h
    obtain ⟨reg, -, rfl, -, -⟩ := step_split hs
    have hi := code_of_instr? hfn h₁.func_eq hb.instr
    obtain ⟨hthen, helse⟩ := inArms_of_split hfn hnest h₁.func_eq hi hsimple
    have h₂ := h₁.rejoin hb.apart_after hi hthen.simple (iht hthen) (ihe (helse a)) hj
    exact (ih h₂).after (hb.stays.trans (stays_of_rejoin hj))
      (hb.adds (adds_of_rejoin ((iht hthen).adds.all rfl) ((ihe (helse a)).adds.all rfl) hj))
  | @part r r₁ r' a b i cond elsePc' join thenJoined elseJoined hb hs hsimple ht he hj iht ihe =>
    have h₁ := hb.inArms h
    obtain ⟨reg, -, rfl, -, -⟩ := step_split hs
    have hi := code_of_instr? hfn h₁.func_eq hb.instr
    obtain ⟨hthen, helse⟩ := inArms_of_split hfn hnest h₁.func_eq hi hsimple
    exact ⟨hb.adds (adds_of_rejoin ((iht hthen).adds.all rfl) ((ihe (helse a)).adds.all rfl) hj),
      fun hj => by cases hj⟩

/-- A split of which both arms were walked leaves a bare branch behind. -/
theorem adds_of_split {cond : Operand} {thenJoined elseJoined goes : Bool}
    (hfn : g.program.functions[func]? = some fn)
    (hnest : g.program.SplitsEnclose g.policy.loopHeadersOnly func) (hfunc : r.func = func)
    (hi : g.program.instr? r.loc = some i) (hs : r.step g i = .ok (.split cond elsePc join))
    (hsimple : g.program.isAllocatingSplit r.loc = false)
    (ht : Walks g (r.thenArm join) thenJoined a)
    (he : Walks g (r.elseArm a elsePc join) elseJoined b)
    (hj : r.rejoin cond a b thenJoined elseJoined = .ok (goes, r')) : Adds Bare r r' := by
  obtain ⟨reg, -, rfl, -, -⟩ := step_split hs
  obtain ⟨hthen, helse⟩ := inArms_of_split hfn hnest hfunc (code_of_instr? hfn hfunc hi) hsimple
  exact adds_of_rejoin ((ht.bares hfn hnest hthen).adds.all rfl)
    ((he.bares hfn hnest (helse a)).adds.all rfl) hj

/-- A walk from anywhere in the function leaves no tuple behind inside of a branch. -/
theorem Walks.bareInside (hfn : g.program.functions[func]? = some fn)
    (hnest : g.program.SplitsEnclose g.policy.loopHeadersOnly func) (hw : Walks g r j r')
    (hfunc : r.func = func) : Adds BareInside r r' := by
  -- The arms of a split are not walked by this induction: `Walks.bares` knows more of them.
  induction hw with
  | joined hjoin => exact adds_of_ops_eq bareInside_nil rfl
  | ends hb hs =>
    obtain ⟨leave, hops⟩ := step_ends_eq_ok hs
    exact hb.adds (adds_of_push (bare_singleton rfl rfl).inside hops)
  | on hb hs hw ih =>
    have hstays := hb.stays.trans (stays_of_step_on hs)
    refine Adds.append BareInside.append (hb.adds ?_) (ih (hstays.func_eq.trans hfunc))
    rcases (step_on_eq_ok hs).1 with hops | ⟨op, hops, hplain, -⟩
    · exact adds_of_ops_eq bareInside_nil hops
    · exact adds_of_push (bareInside_of_isPlain hplain) hops
  | keep hb hs hw ih =>
    refine Adds.append BareInside.append (hb.adds ?_) (ih (hb.stays.func_eq.trans hfunc))
    exact adds_of_push (bare_singleton rfl rfl).inside rfl
  | rejoin hb hs hsimple ht he hj hw iht ihe ih =>
    have hfunc₁ := hb.stays.func_eq.trans hfunc
    have hbranch := adds_of_split hfn hnest hfunc₁ hb.instr hs hsimple ht he hj
    exact Adds.append BareInside.append (hb.adds (hbranch.mono Bare.inside))
      (ih ((stays_of_rejoin hj).func_eq.trans hfunc₁))
  | part hb hs hsimple ht he hj iht ihe =>
    have hfunc₁ := hb.stays.func_eq.trans hfunc
    have hbranch := adds_of_split hfn hnest hfunc₁ hb.instr hs hsimple ht he hj
    exact hb.adds (hbranch.mono Bare.inside)

end

/-- Where the splits of a function enclose their arms, no operation inside of a branch of a
committed trace makes a tuple, whatever the counters, the store and the policy are. -/
theorem committed_branches_are_bare {f : Frame} {t : Trace} (hr : Opens f r)
    (ht : r.specialize g = .ok (.committed t))
    (hnest : g.program.SplitsEnclose g.policy.loopHeadersOnly r.func) : BareInside t.ops := by
  obtain ⟨r', hw, rfl⟩ := specialize_eq_committed ht
  obtain ⟨fn, hfn, -⟩ := hw.inCode
  obtain ⟨loc, origin, rfl⟩ := hr.eq_entering
  exact (hw.bareInside hfn hnest rfl).all rfl

/-- A split in an arm of another one, and a tuple where all arms have met. -/
def sorting : Function :=
  { name := "sorting", registers := 3,
    code := #[.branch 0 6 (some 7), .branch 1 4 (some 5), .const 1 (.int 1), .jump 5,
      .const 1 (.int 2), .jump 7, .const 1 (.int 3), .alloc 2 [0, 1], .ret 2] }

/-- The function as a program. -/
def sortingProgram : Program :=
  { functions := #[sorting], entry := 0, facts := .ofFunctions #[sorting], faultless := by decide,
    facts_eq := rfl }

/-- What is left of it. -/
def sortingTrace : Trace :=
  { entry := ⟨0, 0⟩, slots := 6, registers := 3,
    ops := [.branch (.slot 0)
        [.branch (.slot 1) [.const 3 (.int 1)] [.const 3 (.int 2)], .copy 4 3]
        [.const 4 (.int 3)],
      .alloc 5 [.slot 0, .slot 4],
      .exit ⟨⟨0, 8⟩, .returned (.slot 5), [.slot 0 false, .slot 4 false, .slot 5 false]⟩] }

theorem sorting_splits {pc elsePc : Nat} {cond : Reg} {join : Option Nat}
    (h : sorting.code[pc]? = some (.branch cond elsePc join)) :
    (pc = 0 ∧ elsePc = 6 ∧ join = some 7) ∨ (pc = 1 ∧ elsePc = 4 ∧ join = some 5) := by
  have hpc : pc < 9 := Program.lt_of_getElem? h
  match pc, hpc with
  | 0, _ =>
    cases h
    exact Or.inl ⟨rfl, rfl, rfl⟩
  | 1, _ =>
    cases h
    exact Or.inr ⟨rfl, rfl, rfl⟩
  | 2, _ | 3, _ | 4, _ | 5, _ | 6, _ | 7, _ | 8, _ => cases h

theorem sorting_splitsEnclose (headersOnly : Bool) :
    sortingProgram.SplitsEnclose headersOnly 0 := by
  intro f pc cond elsePc join hf hi hsimple
  cases hf
  have hmerge : ∀ i ∈ sorting.code, i.isMergePoint = false := by decide
  refine ⟨fun q greens hq hj hcode => ?_, fun q cond' elsePc' k hq hj hcode hsimple' hk => ?_⟩
  · cases hmerge _ (Array.mem_of_getElem? hcode)
  · rcases sorting_splits hi with ⟨rfl, rfl, rfl⟩ | ⟨rfl, rfl, rfl⟩
    · have hmem : q ∈ [6, 1, 2, 4, 3, 5, 7] := hq.mem_of_closed (by decide) (by decide)
      rcases sorting_splits hcode with ⟨rfl, -, -⟩ | ⟨rfl, rfl, hk'⟩
      · exact absurd hmem (by decide)
      · cases hk'
        have h₄ : sorting.Arms 0 6 (some 7) 4 := hq.onward (by decide) (by decide)
        exact h₄.onward (by decide) (by decide)
    · have hmem : q ∈ [4, 2, 3, 5] := hq.mem_of_closed (by decide) (by decide)
      rcases sorting_splits hcode with ⟨rfl, -, -⟩ | ⟨rfl, -, -⟩
      · exact absurd hmem (by decide)
      · exact absurd hmem (by decide)

/-- Two splits, one inside of the other, that leave the tuple to what comes after them. -/
theorem committed_branches_are_bare_sorting :
    (generic ⟨0, 0⟩ (Frame.blank 3)).specialize ⟨sortingProgram, {}, {}, {}⟩ =
        .ok (.committed sortingTrace) ∧
      BareInside sortingTrace.ops ∧ sortingTrace.ops.any Op.isAlloc = true := by
  have hr : Opens (Frame.blank 3) (generic ⟨0, 0⟩ (Frame.blank 3)) := .generic ⟨0, 0⟩
  have ht : (generic ⟨0, 0⟩ (Frame.blank 3)).specialize ⟨sortingProgram, {}, {}, {}⟩ =
      .ok (.committed sortingTrace) := by with_unfolding_all rfl
  exact ⟨ht, committed_branches_are_bare hr ht (sorting_splitsEnclose false), rfl⟩

-- ============================================================================
-- Tuples in arms
-- ============================================================================

/-- A tuple in an arm, behind a merge point that no loop comes back to. -/
def passing : Function :=
  { name := "passing", registers := 2,
    code := #[.branch 0 3 (some 3), .mergePoint [], .alloc 1 [0], .ret 1] }

/-- The function as a program. -/
def passingProgram : Program :=
  { functions := #[passing], entry := 0, facts := .ofFunctions #[passing], faultless := by decide,
    facts_eq := rfl }

/-- What is left of it where only loop headers are dispatch points. -/
def passingTrace : Trace :=
  { entry := ⟨0, 0⟩, slots := 4, registers := 2,
    ops := [.branch (.slot 0) [.alloc 2 [.slot 0], .copy 3 2] [.copy 3 1],
      .exit ⟨⟨0, 3⟩, .returned (.slot 3), [.slot 0 false, .slot 3 false]⟩] }

/-- A split in an arm of another one, the join of which comes after the join of the outer. -/
def crossing : Function :=
  { name := "crossing", registers := 3,
    code := #[.branch 0 3 (some 3), .branch 1 3 (some 4), .jump 3, .const 2 (.int 1),
      .alloc 2 [0], .ret 2] }

/-- The function as a program. -/
def crossingProgram : Program :=
  { functions := #[crossing], entry := 0, facts := .ofFunctions #[crossing], faultless := by decide,
    facts_eq := rfl }

/-- What is left of it. The tuple after both joins is made twice. -/
def crossingTrace : Trace :=
  { entry := ⟨0, 0⟩, slots := 5, registers := 3,
    ops := [.branch (.slot 0)
        [.branch (.slot 1) [] [], .alloc 3 [.slot 0],
          .exit ⟨⟨0, 5⟩, .returned (.slot 3), [.slot 0 false, .slot 1 false, .slot 3 false]⟩]
        [],
      .alloc 4 [.slot 0],
      .exit ⟨⟨0, 5⟩, .returned (.slot 4), [.slot 0 false, .slot 1 false, .slot 4 false]⟩] }

/-- Without the condition there are tuples inside of branches, though no split is marked: a
merge point that does nothing does not stop the walk of an arm, and neither does the join
of a split when the walk is inside of another one. -/
theorem committed_branches_allocate :
    ((generic ⟨0, 0⟩ (Frame.blank 2)).specialize
        ⟨passingProgram, { loopHeadersOnly := true }, {}, {}⟩ = .ok (.committed passingTrace) ∧
      ¬ BareInside passingTrace.ops) ∧
    (generic ⟨0, 0⟩ (Frame.blank 3)).specialize ⟨crossingProgram, {}, {}, {}⟩ =
        .ok (.committed crossingTrace) ∧
      ¬ BareInside crossingTrace.ops := by
  have hpassing : ¬ BareInside passingTrace.ops :=
    not_bareInside List.mem_cons_self List.mem_cons_self
  have hcrossing : ¬ BareInside crossingTrace.ops :=
    not_bareInside List.mem_cons_self (List.mem_cons_of_mem _ List.mem_cons_self)
  exact ⟨⟨by with_unfolding_all rfl, hpassing⟩, by with_unfolding_all rfl, hcrossing⟩

end Region

end HotPath
