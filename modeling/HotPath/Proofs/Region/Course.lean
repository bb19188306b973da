/-
  HotPath.Proofs.Region.Course

  The course of a walk from any region, also one that does not fit its function.
  Processing an instruction changes what is known about registers and leaves at most
  one operation behind (`Region.computed_of_compute`). A walk stays in its function
  and stops at no other join than its own (`Region.Walks.stays`), so that two arms
  that stop at their join have met.

  It follows that no attempt to specialize ends because walks that should have met
  did not (`Region.specialize_neverApart`).
-/
import HotPath.Proofs.Program.Splits
import HotPath.Proofs.Region.Total
import HotPath.Proofs.Region.WellFormed

namespace HotPath

/-- Whether the operation makes a tuple. -/
def Op.isAlloc : Op → Bool
  | .alloc .. => true
  | _ => false

namespace Region

variable {g : Guide} {r r' : Region} {i : Instr}

-- ============================================================================
-- One instruction
-- ============================================================================

/-- What processing an instruction can do to a region. The operation that it leaves
behind, if it does, is no branch and no exit, and it makes a tuple only if the
instruction does. -/
inductive Computed (r : Region) (i : Instr) : Region → Prop where
  | known {regs : List Binding} (hlen : regs.length = r.regs.length) : Computed r i { r with regs }
  | left {regs : List Binding} {nextSlot : Nat} {op : Op} (hlen : regs.length = r.regs.length)
    (hplain : op.isPlain = true) (halloc : op.isAlloc = true → i.isAlloc = true) :
    Computed r i { r with regs, nextSlot, ops := r.ops.push op }

theorem computed_of_set {dst : Reg} {b : Binding} (h : r.set dst b = .ok r') : Computed r i r' := by
  obtain ⟨-, rfl⟩ := set_eq_ok h
  exact .known List.length_set

theorem computed_of_residual {dst : Reg} {tainted : Bool} {op : Slot → Op}
    (h : r.residual dst tainted op = .ok r') (hplain : (op r.nextSlot).isPlain = true)
    (halloc : (op r.nextSlot).isAlloc = true → i.isAlloc = true) : Computed r i r' := by
  unfold residual at h
  obtain ⟨⟨s, r₁⟩, hfresh, h⟩ := bind_eq_ok.mp h
  unfold fresh at hfresh
  obtain ⟨next, -, hfresh⟩ := bind_eq_ok.mp hfresh
  cases hfresh
  obtain ⟨-, rfl⟩ := set_eq_ok h
  exact .left List.length_set hplain halloc

theorem computed_of_compute (h : r.compute g i = .ok r') : Computed r i r' := by
  cases i with
  | const dst v => exact computed_of_set h
  | move dst src =>
    rw [compute] at h
    obtain ⟨b, -, h⟩ := bind_eq_ok.mp h
    exact computed_of_set h
  | binary op dst lhs rhs =>
    rw [compute] at h
    obtain ⟨a, -, h⟩ := bind_eq_ok.mp h
    obtain ⟨b, -, h⟩ := bind_eq_ok.mp h
    cases hfold : fold? op a b with
    | some v =>
      rw [hfold] at h
      exact computed_of_set h
    | none =>
      rw [hfold] at h
      exact computed_of_residual h rfl id
  | input dst => exact computed_of_residual h rfl id
  | print src =>
    rw [compute] at h
    obtain ⟨b, -, h⟩ := bind_eq_ok.mp h
    cases h
    exact .left rfl rfl id
  | alloc dst fields =>
    rw [compute] at h
    obtain ⟨bs, -, h⟩ := bind_eq_ok.mp h
    cases hconst : consts? bs with
    | some vs =>
      rw [hconst] at h
      exact computed_of_set h
    | none =>
      rw [hconst] at h
      exact computed_of_residual h rfl id
  | getField dst obj index =>
    rw [compute] at h
    obtain ⟨b, -, h⟩ := bind_eq_ok.mp h
    cases hfold : b.const?.bind (fun v => (v.field index).toOption) with
    | some v =>
      rw [hfold] at h
      exact computed_of_set h
    | none =>
      rw [hfold] at h
      exact computed_of_residual h rfl id
  | call dst func args =>
    rw [compute] at h
    obtain ⟨bs, -, h⟩ := bind_eq_ok.mp h
    exact computed_of_residual h rfl id
  | jump | branch | mergePoint | promote | ret =>
    cases h
    exact .known rfl

-- ============================================================================
-- Functions and joins
-- ============================================================================

/-- A walk is in the same function, and has the same join to stop at. -/
structure Stays (r r' : Region) : Prop where
  func_eq : r'.func = r.func
  stopAt_eq : r'.stopAt = r.stopAt

theorem Stays.refl (r : Region) : r.Stays r := ⟨rfl, rfl⟩

theorem Stays.trans {r₁ : Region} (h : r.Stays r₁) (h' : r₁.Stays r') : r.Stays r' :=
  ⟨h'.func_eq.trans h.func_eq, h'.stopAt_eq.trans h.stopAt_eq⟩

theorem Begins.stays {r₁ : Region} (h : Begins g r r₁ i) : r.Stays r₁ := by
  rw [tick_eq_ok h.tick]
  exact ⟨rfl, rfl⟩

theorem Computed.stays (h : Computed r i r') : r.Stays r' := by
  cases h with
  | known | left => exact ⟨rfl, rfl⟩

theorem stays_of_step_on (h : r.step g i = .ok (.on r')) : r.Stays r' := by
  cases treats_of_step h with
  | compute hi hc ha =>
    rw [advance_eq_ok ha]
    exact (computed_of_compute hc).stays.trans ⟨rfl, rfl⟩
  | jump | fold => exact ⟨rfl, rfl⟩
  | pass hd ha =>
    rw [advance_eq_ok ha]
    exact ⟨rfl, rfl⟩
  | skip ha =>
    rw [advance_eq_ok ha]
    exact ⟨rfl, rfl⟩

theorem stays_of_step_ends (h : r.step g i = .ok (.ends r')) : r.Stays r' := by
  cases treats_of_step h with
  | arrive | promote | ret => exact ⟨rfl, rfl⟩

theorem stays_of_rejoin {cond : Operand} {a b : Region} {thenJoined elseJoined goes : Bool}
    (h : r.rejoin cond a b thenJoined elseJoined = .ok (goes, r')) : r.Stays r' := by
  unfold rejoin at h
  cases thenJoined with
  | false =>
    cases elseJoined with
    | false | true =>
      cases h
      exact ⟨rfl, rfl⟩
  | true =>
    cases elseJoined with
    | false =>
      cases h
      exact ⟨rfl, rfl⟩
    | true =>
      obtain ⟨merge, -, h⟩ := bind_eq_ok.mp h
      cases merge with
      | merged | clash =>
        cases h
        exact ⟨rfl, rfl⟩

/-- Merging registers moves some, which makes no tuple. -/
theorem moves_of_weave {next : Slot} {ts es : List Binding} {w : Weave}
    (h : weave next ts es = .ok w) :
    ∀ op ∈ w.thenOps ++ w.elseOps, op.nested = [op] ∧ op.isAlloc = false := by
  have hmove : ∀ n b, (materialize n b).nested = [materialize n b] ∧
      (materialize n b).isAlloc = false := by
    intro n b
    cases b with
    | fixed | slot => exact ⟨rfl, rfl⟩
  induction ts generalizing next es w with
  | nil =>
    cases h
    exact fun op hop => by cases hop
  | cons t ts ih =>
    cases es with
    | nil =>
      cases h
      exact fun op hop => by cases hop
    | cons e es =>
      rcases weave_cons_eq_ok h with ⟨b, w', -, hw, rfl⟩ | ⟨w', -, hw, rfl⟩
      · have hrest := ih hw
        exact hrest
      · have hrest := ih hw
        intro op hop
        simp only [List.cons_append, List.mem_cons, List.mem_append] at hop hrest
        rcases hop with rfl | hop | rfl | hop
        · exact hmove next t
        · exact hrest op (Or.inl hop)
        · exact hmove next e
        · exact hrest op (Or.inr hop)

/-- Putting arms together leaves a branch behind, with the operations of the arms and no
tuple more, and the walk goes on where an arm has stopped at the join. -/
theorem rejoin_eq_ok {cond : Operand} {a b : Region} {thenJoined elseJoined goes : Bool}
    (h : r.rejoin cond a b thenJoined elseJoined = .ok (goes, r')) :
    (∃ thenOps elseOps,
      r'.ops = r.ops.push (.branch cond (a.ops.toList ++ thenOps) (b.ops.toList ++ elseOps)) ∧
      ∀ op ∈ thenOps ++ elseOps, op.nested = [op] ∧ op.isAlloc = false) ∧
    (goes = true → (thenJoined = true ∧ r'.cursor = a.cursor) ∨
      (elseJoined = true ∧ r'.cursor = b.cursor)) := by
  have hnil : ∀ ops : List Op, ops = ops ++ [] := fun ops => (List.append_nil ops).symm
  have hplain : ∀ op ∈ ([] ++ [] : List Op), op.nested = [op] ∧ op.isAlloc = false :=
    fun op hop => by cases hop
  unfold rejoin at h
  cases thenJoined with
  | false =>
    cases elseJoined with
    | false =>
      cases h
      exact ⟨⟨[], [], by rw [← hnil, ← hnil]; rfl, hplain⟩, fun h => by cases h⟩
    | true =>
      cases h
      exact ⟨⟨[], [], by rw [← hnil, ← hnil]; rfl, hplain⟩, fun _ => Or.inr ⟨rfl, rfl⟩⟩
  | true =>
    cases elseJoined with
    | false =>
      cases h
      exact ⟨⟨[], [], by rw [← hnil, ← hnil]; rfl, hplain⟩, fun _ => Or.inl ⟨rfl, rfl⟩⟩
    | true =>
      obtain ⟨merge, hmerge, h⟩ := bind_eq_ok.mp h
      cases merge with
      | merged thenOps elseOps q =>
        cases h
        obtain ⟨-, -, w, hw, rfl, rfl, rfl⟩ := mergeArms_eq_merged hmerge
        exact ⟨⟨w.thenOps, w.elseOps, rfl, moves_of_weave hw⟩, fun _ => Or.inl ⟨rfl, rfl⟩⟩
      | clash a' b' reg conflict =>
        cases h
        refine ⟨⟨[], [.exit (b.leaveAt b.loc .fallback)], ?_, fun op hop => ?_⟩,
          fun _ => Or.inl ⟨rfl, rfl⟩⟩
        · have hleave : (b.leaveHere .fallback).ops.toList =
              b.ops.toList ++ [.exit (b.leaveAt b.loc .fallback)] := Array.toList_push
          rw [← hnil, ← hleave]
          rfl
        · rw [List.mem_singleton.mp hop]
          exact ⟨rfl, rfl⟩

theorem Walks.stays {joined : Bool} (h : Walks g r joined r') : r.Stays r' := by
  induction h with
  | joined h => exact .refl _
  | ends hb hs => exact hb.stays.trans (stays_of_step_ends hs)
  | on hb hs hw ih => exact hb.stays.trans ((stays_of_step_on hs).trans ih)
  | keep hb hs hw ih => exact hb.stays.trans ⟨ih.func_eq, ih.stopAt_eq⟩
  | rejoin hb hs hsimple ht he hj hw iht ihe ih =>
    exact hb.stays.trans ((stays_of_rejoin hj).trans ih)
  | part hb hs hsimple ht he hj iht ihe => exact hb.stays.trans (stays_of_rejoin hj)

/-- A walk that stopped at a join stands at it. -/
theorem Walks.atJoin {joined : Bool} (h : Walks g r joined r') (hj : joined = true) :
    r'.stopAt = some r'.cursor := by
  induction h with
  | joined h => exact h
  | ends | part => cases hj
  | on hb hs hw ih => exact ih hj
  | keep hb hs hw ih => exact ih hj
  | rejoin hb hs hsimple ht he hj' hw iht ihe ih => exact ih hj

theorem Walks.length_eq {joined : Bool} (h : Walks g r joined r') :
    r'.regs.length = r.regs.length := by
  obtain ⟨ops, hops⟩ := h.lays rfl
  exact hops.lays.length_eq

/-- Two arms that stopped at their join have met. -/
theorem met_of_walks {a b : Region} {elsePc : Nat} {join : Option Nat}
    (ha : Walks g (r.thenArm join) true a) (hb : Walks g (r.elseArm a elsePc join) true b) :
    Met a b := by
  have hcursor : some a.cursor = some b.cursor := by
    rw [← ha.atJoin rfl, ← hb.atJoin rfl, ha.stays.stopAt_eq, hb.stays.stopAt_eq]
    rfl
  exact ⟨ha.stays.func_eq.trans hb.stays.func_eq.symm, Option.some.inj hcursor,
    ha.length_eq.trans hb.length_eq.symm⟩

end Region

-- ============================================================================
-- Walks that are never found apart
-- ============================================================================

/-- A computation that does not fail because two walks did not meet. -/
def NeverApart {α : Type} (x : Except Fault α) : Prop :=
  ∀ cause, x ≠ .error (.mergeIncompatible cause)

namespace NeverApart

variable {α β : Type}

theorem ok (a : α) : NeverApart (.ok a) := fun _ h => by cases h

theorem bind {x : Except Fault α} {next : α → Except Fault β} (hx : NeverApart x)
    (hn : ∀ a, x = .ok a → NeverApart (next a)) : NeverApart (x >>= next) := by
  cases x with
  | ok a => exact hn a rfl
  | error e =>
    intro cause h
    cases h
    exact hx cause rfl

theorem map {x : Except Fault α} (hx : NeverApart x) (f : α → β) : NeverApart (x.map f) := by
  cases x with
  | ok a => exact .ok _
  | error e =>
    intro cause h
    cases h
    exact hx cause rfl

theorem inWidth (x : Option α) : NeverApart (inWidth x) := by
  cases x with
  | some a => exact .ok a
  | none => exact fun _ h => by cases h

theorem inRange (x : Option α) : NeverApart (inRange x) := by
  cases x with
  | some a => exact .ok a
  | none => exact fun _ h => by cases h

/-- What can only fail because a number leaves its width. -/
theorem of_succeedsIf {c : Prop} {x : Except Fault α} (h : SucceedsIf c x) : NeverApart x := by
  rcases h with ⟨a, rfl⟩ | ⟨rfl, -⟩
  · exact .ok a
  · exact fun _ h => by cases h

end NeverApart

namespace Region

variable {g : Guide} {r : Region}

theorem advance_neverApart (r : Region) : NeverApart r.advance :=
  (NeverApart.inWidth _).bind (fun _ _ => .ok _)

theorem getAll_neverApart (r : Region) (regs : List Reg) : NeverApart (r.getAll regs) := by
  induction regs with
  | nil => exact .ok _
  | cons reg regs ih => exact (NeverApart.inRange _).bind (fun _ _ => ih.bind (fun _ _ => .ok _))

theorem set_neverApart (r : Region) (reg : Reg) (b : Binding) : NeverApart (r.set reg b) := by
  unfold set
  split
  · exact .ok _
  · exact fun _ h => by cases h

theorem residual_neverApart (r : Region) (dst : Reg) (tainted : Bool) (op : Slot → Op) :
    NeverApart (r.residual dst tainted op) := by
  have hslot : NeverApart (nextSlot? r.nextSlot) :=
    .of_succeedsIf (nextSlot?_succeedsIf (c := False) False.elim)
  exact (hslot.bind (fun _ _ => .ok _)).bind (fun q _ => set_neverApart (q.2.emit (op q.1)) dst _)

theorem compute_neverApart (g : Guide) (r : Region) (i : Instr) : NeverApart (r.compute g i) := by
  cases i with
  | const dst v => exact set_neverApart r dst _
  | move dst src => exact (NeverApart.inRange _).bind (fun _ _ => set_neverApart r dst _)
  | binary op dst lhs rhs =>
    refine (NeverApart.inRange _).bind (fun a _ => (NeverApart.inRange _).bind (fun b _ => ?_))
    cases fold? op a b with
    | some v => exact set_neverApart r dst _
    | none => exact residual_neverApart r dst _ _
  | input dst => exact residual_neverApart r dst _ _
  | print src => exact (NeverApart.inRange _).bind (fun _ _ => .ok _)
  | alloc dst fields =>
    refine (getAll_neverApart r fields).bind (fun bs _ => ?_)
    cases consts? bs with
    | some vs => exact set_neverApart r dst _
    | none => exact residual_neverApart r dst _ _
  | getField dst obj index =>
    refine (NeverApart.inRange _).bind (fun b _ => ?_)
    cases b.const?.bind (fun v => (v.field index).toOption) with
    | some v => exact set_neverApart r dst _
    | none => exact residual_neverApart r dst _ _
  | call dst func args =>
    exact (getAll_neverApart r args).bind (fun _ _ => residual_neverApart r dst _ _)
  | jump | branch | mergePoint | promote | ret => exact .ok _

theorem step_neverApart (g : Guide) (r : Region) (i : Instr) : NeverApart (r.step g i) := by
  cases i with
  | jump target => exact .ok _
  | branch cond elsePc join =>
    refine (NeverApart.inRange _).bind (fun b _ => ?_)
    cases b.const? with
    | some v => exact .ok _
    | none => exact .ok _
  | mergePoint greens =>
    rw [step]
    split
    · exact .ok _
    · exact (advance_neverApart r).map _
  | promote reg =>
    refine (NeverApart.inRange _).bind (fun b _ => ?_)
    split
    · exact .ok _
    · exact (advance_neverApart r).map _
  | ret src => exact (NeverApart.inRange _).bind (fun _ _ => .ok _)
  | _ => exact (compute_neverApart g r _).bind (fun q _ => (advance_neverApart q).map _)

theorem rejoin_neverApart {a b : Region} {elsePc : Nat} {join : Option Nat}
    {thenJoined elseJoined : Bool} (ha : Walks g (r.thenArm join) thenJoined a)
    (hb : Walks g (r.elseArm a elsePc join) elseJoined b) (cond : Operand) :
    NeverApart (r.rejoin cond a b thenJoined elseJoined) := by
  unfold rejoin
  cases thenJoined with
  | false => cases elseJoined <;> exact .ok _
  | true =>
    cases elseJoined with
    | false => exact .ok _
    | true =>
      have hmerge : NeverApart (mergeArms a b) :=
        .of_succeedsIf (mergeArms_succeedsIf (c := False) (met_of_walks ha hb) False.elim)
      refine hmerge.bind (fun merge _ => ?_)
      cases merge with
      | merged | clash => exact .ok _

theorem grow_neverApart (n : Nat) (r : Region) : NeverApart (grow g n r) := by
  induction n generalizing r with
  | zero => exact .ok _
  | succ n ih =>
    rw [grow]
    split
    · exact .ok _
    · refine ((NeverApart.inWidth _).bind (fun _ _ => .ok _)).bind (fun r₁ _ => ?_)
      split
      · exact .ok _
      · cases g.program.instr? r₁.loc with
        | none => exact fun _ h => by cases h
        | some i =>
          refine (step_neverApart g r₁ i).bind (fun s _ => ?_)
          cases s with
          | on r₂ => exact ih r₂
          | ends r₂ => exact .ok _
          | split cond elsePc join =>
            dsimp only
            split
            · have harm := Guide.hotArm_succeedsIf (g := g) (c := False) False.elim r₁.loc
              refine (NeverApart.of_succeedsIf harm).bind (fun arm _ => ?_)
              cases arm with
              | none => exact .ok _
              | some taken => exact ih _
            · refine (ih _).bind (fun thenWalk hthen => ?_)
              obtain ⟨thenEnd, a⟩ := thenWalk
              cases thenEnd with
              | gaveUp reason => exact .ok _
              | done | joined =>
                refine (ih _).bind (fun elseWalk helse => ?_)
                obtain ⟨elseEnd, b⟩ := elseWalk
                cases elseEnd with
                | gaveUp reason => exact .ok _
                | done | joined =>
                  have ha := walks_of_grow hthen rfl
                  have hb := walks_of_grow helse rfl
                  refine (rejoin_neverApart ha hb cond).bind (fun rejoined _ => ?_)
                  obtain ⟨goes, r₂⟩ := rejoined
                  cases goes with
                  | true => exact ih r₂
                  | false => exact .ok _

/-- A region that is no arm is specialized without two walks being found apart. -/
theorem specialize_neverApart (hr : r.stopAt = none) : NeverApart (r.specialize g) := by
  refine (grow_neverApart _ r).bind (fun walk hgrow => ?_)
  obtain ⟨ending, r'⟩ := walk
  cases ending with
  | gaveUp reason => exact .ok _
  | done => exact .ok _
  | joined =>
    have hw := walks_of_grow hgrow rfl
    have hstop := hw.atJoin rfl
    rw [hw.stays.stopAt_eq, hr] at hstop
    cases hstop

end Region

end HotPath
