/-
  HotPath.Proofs.Region.WellFormed

  Committed traces are well formed. Slots are handed out by hand while a region
  is walked: arms of a split start from what was taken before them, and go on
  from what both have taken.

    * `Op.Lays` says of operations what a walk needs to know about them to go
      on: which slots they fill, that they read only slots that hold registers
      or that they have filled, and where the registers live afterwards. It is
      kept by every way of putting operations together (`Op.Lays.append`,
      `Op.Lays.branch`).
    * `Region.Walks.lays` says that all operations of a walk are so, by
      induction on the walk.
-/
import HotPath.Proofs.Region.Committed
import HotPath.Proofs.Trace.Paths

namespace HotPath

/-- The slots that registers live in. -/
def Binding.held (bs : List Binding) : List Slot := bs.filterMap Binding.slot?

namespace Binding

theorem mem_held {bs : List Binding} {b : Binding} (hb : b ∈ bs) {s : Slot}
    (hs : b.slot? = some s) : s ∈ held bs := List.mem_filterMap.mpr ⟨b, hb, hs⟩

theorem held_cons (b : Binding) (bs : List Binding) : held (b :: bs) = b.slot?.toList ++ held bs := by
  unfold held
  cases h : b.slot? with
  | none => rw [List.filterMap_cons_none h]; rfl
  | some s => rw [List.filterMap_cons_some h]; rfl

theorem slot?_operand (b : Binding) : b.operand.slot? = b.slot? := by
  cases b <;> rfl

theorem held_set {bs : List Binding} {reg : Reg} {b : Binding} :
    held (bs.set reg b) ⊆ b.slot?.toList ++ held bs := by
  intro s hs
  obtain ⟨c, hc, hcs⟩ := List.mem_filterMap.mp hs
  rcases List.mem_or_eq_of_mem_set hc with hc | rfl
  · exact List.mem_append_right _ (mem_held hc hcs)
  · exact List.mem_append_left _ (Option.mem_toList.mpr hcs)

theorem operand_held {bs : List Binding} {b : Binding} (hb : b ∈ bs) :
    b.operand.slot?.toList ⊆ held bs := by
  intro s hs
  rw [slot?_operand] at hs
  exact mem_held hb (Option.mem_toList.mp hs)

theorem operands_held {bs cs : List Binding} (h : ∀ b ∈ cs, b ∈ bs) :
    (cs.map operand).filterMap Operand.slot? ⊆ held bs := by
  intro s hs
  obtain ⟨x, hx, hxs⟩ := List.mem_filterMap.mp hs
  obtain ⟨b, hb, rfl⟩ := List.mem_map.mp hx
  rw [slot?_operand] at hxs
  exact mem_held (h b hb) hxs

end Binding

namespace Op

open Binding

-- ============================================================================
-- Operations that hand registers on
-- ============================================================================

variable {k n n' : Nat} {bs bs' : List Binding} {ops : List Op} {goes : Bool}

/-- A path that finds registers in their slots and hands them on in others. Slots
from `n` on are unused before it and those from `n'` on after it, and whatever
leaves on the way rebuilds `k` registers. -/
structure Path.Threads (k : Nat) (bs : List Binding) (n : Nat) (p : Path) (bs' : List Binding)
    (n' : Nat) : Prop where
  fed : Fed (held bs) p.ops
  held_subset : p.goes = true → held bs' ⊆ written p.ops ++ held bs
  range : ∀ s : Nat, s ∈ written p.ops → n ≤ s ∧ s < n'
  once : (written p.ops).Nodup
  rebuilds : ∀ op ∈ p.ops, ∀ l, op.leave? = some l → l.regs.length = k

/-- Operations of which every path hands registers on, unless it leaves. Whether
some path does is `goes`. -/
structure Lays (k : Nat) (bs : List Binding) (n : Nat) (ops : List Op) (goes : Bool)
    (bs' : List Binding) (n' : Nat) : Prop where
  length_eq : bs'.length = bs.length
  next_le : n ≤ n'
  neat : NeatAll ops
  open_of_goes : goes = true → ∃ p ∈ pathsAll ops, p.goes = true
  closed_of_not : goes = false → ∀ p ∈ pathsAll ops, p.goes = false
  threads : ∀ p ∈ pathsAll ops, p.Threads k bs n bs' n'

theorem Path.Threads.andThen {p q : Path} {bs₁ : List Binding} {n₁ : Nat}
    (hp : p.Threads k bs n bs₁ n₁) (hq : q.Threads k bs₁ n₁ bs' n') (hn : n ≤ n₁) (hn' : n₁ ≤ n') :
    (p.andThen q).Threads k bs n bs' n' := by
  unfold Path.andThen
  cases hg : p.goes with
  | false =>
    refine ⟨hp.fed, ?_, fun s hs => ?_, hp.once, hp.rebuilds⟩
    · intro h
      rw [cond_false, hg] at h
      cases h
    · have hs := hp.range s hs
      omega
  | true =>
    have hheld := hp.held_subset hg
    refine ⟨hp.fed.append (hq.fed.mono hheld), ?_, ?_, ?_, ?_⟩
    · intro h s hs
      rw [cond_true, written_append, List.append_assoc, List.mem_append]
      rcases List.mem_append.mp (hq.held_subset h hs) with hs | hs
      · exact Or.inr (List.mem_append_left _ hs)
      · rcases List.mem_append.mp (hheld hs) with hs | hs
        · exact Or.inl hs
        · exact Or.inr (List.mem_append_right _ hs)
    · intro s hs
      rw [cond_true, written_append] at hs
      rcases List.mem_append.mp hs with hs | hs
      · have := hp.range s hs
        omega
      · have := hq.range s hs
        omega
    · -- what the second fills was unused after the first
      rw [cond_true, written_append]
      refine List.nodup_append.mpr ⟨hp.once, hq.once, fun s hs s' hs' heq => ?_⟩
      subst heq
      have := hp.range s hs
      have := hq.range s hs'
      omega
    · intro op hop
      rcases List.mem_append.mp hop with hop | hop
      · exact hp.rebuilds op hop
      · exact hq.rebuilds op hop

namespace Lays

theorem append {xs ys : List Op} {bs₁ : List Binding} {n₁ : Nat} (hx : Lays k bs n xs true bs₁ n₁)
    (hy : Lays k bs₁ n₁ ys goes bs' n') : Lays k bs n (xs ++ ys) goes bs' n' where
  length_eq := hy.length_eq.trans hx.length_eq
  next_le := Nat.le_trans hx.next_le hy.next_le
  neat := hx.neat.append hy.neat (hx.open_of_goes rfl)
  open_of_goes := by
    intro hgoes
    obtain ⟨p, hp, hpg⟩ := hx.open_of_goes rfl
    obtain ⟨q, hq, hqg⟩ := hy.open_of_goes hgoes
    refine ⟨_, mem_pathsAll_append.mpr ⟨p, hp, q, hq, rfl⟩, ?_⟩
    rw [Path.andThen, hpg]
    exact hqg
  closed_of_not := by
    intro hgoes p hp
    obtain ⟨q, hq, q', hq', rfl⟩ := mem_pathsAll_append.mp hp
    have hq' := hy.closed_of_not hgoes q' hq'
    unfold Path.andThen
    cases hg : q.goes with
    | false => exact hg
    | true => exact hq'
  threads := by
    intro p hp
    obtain ⟨q, hq, q', hq', rfl⟩ := mem_pathsAll_append.mp hp
    exact (hx.threads q hq).andThen (hy.threads q' hq') hx.next_le hy.next_le

/-- No operation, and registers that are found where they were. -/
theorem nil (k n : Nat) (hlen : bs'.length = bs.length) (hheld : held bs' ⊆ held bs) :
    Lays k bs n [] true bs' n where
  length_eq := hlen
  next_le := Nat.le_refl n
  neat := trivial
  open_of_goes := fun _ => ⟨_, List.mem_singleton.mpr rfl, rfl⟩
  closed_of_not := nofun
  threads := by
    intro p hp
    rw [List.mem_singleton.mp hp]
    exact ⟨trivial, fun _ => hheld, nofun, List.nodup_nil, nofun⟩

/-- One operation that always goes on, and fills the next slot if it fills one. -/
theorem plain {op : Op} (hop : op.isPlain = true) (hreads : op.reads ⊆ held bs)
    (hdst : ∀ s, op.dst? = some s → s = n ∧ n < n') (hn : n ≤ n')
    (hlen : bs'.length = bs.length) (hheld : held bs' ⊆ op.dst?.toList ++ held bs)
    (hleave : ∀ l, op.leave? = some l → l.regs.length = k) : Lays k bs n [op] true bs' n' where
  length_eq := hlen
  next_le := hn
  neat := ⟨neat_of_isPlain hop, trivial, fun h => absurd rfl h⟩
  open_of_goes := by
    intro _
    refine ⟨⟨[op], true⟩, mem_pathsAll_singleton.mpr ?_, rfl⟩
    rw [paths_of_isPlain hop]
    exact List.mem_singleton.mpr rfl
  closed_of_not := nofun
  threads := by
    intro p hp
    rw [mem_pathsAll_singleton, paths_of_isPlain hop, List.mem_singleton] at hp
    subst hp
    have hwritten : written [op] = op.dst?.toList := by
      rw [written_cons]
      exact List.append_nil _
    refine ⟨⟨hreads, trivial⟩, fun _ => ?_, fun s hs => ?_, ?_, fun x hx => ?_⟩
    · rw [hwritten]
      exact hheld
    · rw [hwritten] at hs
      obtain ⟨rfl, hlt⟩ := hdst s (Option.mem_toList.mp hs)
      exact ⟨Nat.le_refl _, hlt⟩
    · rw [hwritten]
      cases op.dst? with
      | none => exact List.nodup_nil
      | some s => exact List.nodup_cons.mpr ⟨List.not_mem_nil, List.nodup_nil⟩
    · rw [List.mem_singleton.mp hx]
      exact hleave

/-- An exit that rebuilds all registers. -/
theorem exit {l : Leave} (huses : l.uses ⊆ held bs) (hlen : l.regs.length = k) :
    Lays k bs n [.exit l] false bs n where
  length_eq := rfl
  next_le := Nat.le_refl n
  neat := ⟨trivial, trivial, fun h => absurd rfl h⟩
  open_of_goes := nofun
  closed_of_not := by
    intro _ p hp
    rw [List.mem_singleton.mp (mem_pathsAll_singleton.mp hp)]
  threads := by
    intro p hp
    rw [List.mem_singleton.mp (mem_pathsAll_singleton.mp hp)]
    refine ⟨⟨huses, trivial⟩, nofun, nofun, List.nodup_nil, fun op hop l' hl => ?_⟩
    rw [List.mem_singleton.mp hop] at hl
    cases hl
    exact hlen

/-- More slots may be left out. -/
theorem mono {i j : Nat} (h : Lays k bs i ops goes bs' j) (hi : n ≤ i) (hj : j ≤ n') :
    Lays k bs n ops goes bs' n' where
  length_eq := h.length_eq
  next_le := Nat.le_trans hi (Nat.le_trans h.next_le hj)
  neat := h.neat
  open_of_goes := h.open_of_goes
  closed_of_not := h.closed_of_not
  threads := by
    intro p hp
    have ht := h.threads p hp
    refine ⟨ht.fed, ht.held_subset, fun s hs => ?_, ht.once, ht.rebuilds⟩
    have := ht.range s hs
    omega

/-- Operations that always leave hand on whatever one likes. -/
theorem of_leaves {bs₁ : List Binding} (h : Lays k bs n ops false bs₁ n')
    (hlen : bs'.length = bs.length) : Lays k bs n ops false bs' n' where
  length_eq := hlen
  next_le := h.next_le
  neat := h.neat
  open_of_goes := nofun
  closed_of_not := h.closed_of_not
  threads := by
    intro p hp
    have ht := h.threads p hp
    refine ⟨ht.fed, fun hg => ?_, ht.range, ht.once, ht.rebuilds⟩
    rw [h.closed_of_not rfl p hp] at hg
    cases hg

/-- A register beside the others that stays where it is. -/
theorem keep {b c : Binding} (h : Lays k bs n ops true bs' n') (hc : c.slot?.toList ⊆ b.slot?.toList) :
    Lays k (b :: bs) n ops true (c :: bs') n' where
  length_eq := congrArg Nat.succ h.length_eq
  next_le := h.next_le
  neat := h.neat
  open_of_goes := h.open_of_goes
  closed_of_not := h.closed_of_not
  threads := by
    intro p hp
    have ht := h.threads p hp
    have hsub : held bs ⊆ held (b :: bs) := by
      rw [held_cons]
      exact List.subset_append_right _ _
    refine ⟨ht.fed.mono hsub, fun hg s hs => ?_, ht.range, ht.once, ht.rebuilds⟩
    rw [held_cons, List.mem_append] at hs
    rw [held_cons, List.mem_append, List.mem_append]
    rcases hs with hs | hs
    · exact Or.inr (Or.inl (hc hs))
    · rcases List.mem_append.mp (ht.held_subset hg hs) with hs | hs
      · exact Or.inl hs
      · exact Or.inr (Or.inr hs)

/-- Two arms that hand registers on alike, as far as they do not leave. -/
theorem branch {cond : Operand} {thenOps elseOps : List Op} {thenGoes elseGoes : Bool}
    (ht : Lays k bs n thenOps thenGoes bs' n') (hcond : cond.slot?.toList ⊆ held bs)
    (he : Lays k bs n elseOps elseGoes bs' n') :
    Lays k bs n [.branch cond thenOps elseOps] (thenGoes || elseGoes) bs' n' where
  length_eq := ht.length_eq
  next_le := ht.next_le
  neat := ⟨⟨ht.neat, he.neat⟩, trivial, fun h => absurd rfl h⟩
  open_of_goes := by
    intro hgoes
    have harm : ∃ q, (q ∈ pathsAll thenOps ∨ q ∈ pathsAll elseOps) ∧ q.goes = true := by
      rcases Bool.or_eq_true_iff.mp hgoes with hg | hg
      · obtain ⟨q, hq, hqg⟩ := ht.open_of_goes hg
        exact ⟨q, Or.inl hq, hqg⟩
      · obtain ⟨q, hq, hqg⟩ := he.open_of_goes hg
        exact ⟨q, Or.inr hq, hqg⟩
    obtain ⟨q, hq, hqg⟩ := harm
    exact ⟨_, mem_pathsAll_singleton.mpr (mem_paths_branch.mpr ⟨q, hq, rfl⟩), hqg⟩
  closed_of_not := by
    intro hgoes p hp
    obtain ⟨htg, heg⟩ := Bool.or_eq_false_iff.mp hgoes
    obtain ⟨q, hq, rfl⟩ := mem_paths_branch.mp (mem_pathsAll_singleton.mp hp)
    rcases hq with hq | hq
    · exact ht.closed_of_not htg q hq
    · exact he.closed_of_not heg q hq
  threads := by
    intro p hp
    obtain ⟨q, hq, rfl⟩ := mem_paths_branch.mp (mem_pathsAll_singleton.mp hp)
    have hthreads : q.Threads k bs n bs' n' := by
      rcases hq with hq | hq
      · exact ht.threads q hq
      · exact he.threads q hq
    refine ⟨⟨hcond, hthreads.fed⟩, hthreads.held_subset, hthreads.range, hthreads.once, ?_⟩
    intro op hop
    rcases List.mem_cons.mp hop with rfl | hop
    · exact nofun
    · exact hthreads.rebuilds op hop

end Lays

end Op

-- ============================================================================
-- Steps
-- ============================================================================

namespace Region

open Binding

variable {g : Guide} {k : Nat} {r r' : Region} {ops : List Op} {goes : Bool}

/-- A region left operations behind that hand its registers on. -/
structure Lays (k : Nat) (r : Region) (ops : List Op) (goes : Bool) (r' : Region) : Prop where
  ops_eq : r'.ops.toList = r.ops.toList ++ ops
  lays : Op.Lays k r.regs r.nextSlot ops goes r'.regs r'.nextSlot

theorem Lays.append {r₁ : Region} {ops' : List Op} (h : r.Lays k ops true r₁)
    (h' : r₁.Lays k ops' goes r') : r.Lays k (ops ++ ops') goes r' where
  ops_eq := by rw [h'.ops_eq, h.ops_eq, List.append_assoc]
  lays := h.lays.append h'.lays

theorem lays_jump (k : Nat) (r : Region) (pc : Nat) : r.Lays k [] true (r.jump pc) :=
  ⟨(List.append_nil _).symm, .nil k _ rfl (List.Subset.refl _)⟩

/-- A register that gets what another one has, or a fixed value. -/
theorem lays_set {dst : Reg} {b : Binding} (h : r.set dst b = .ok r')
    (hb : b.slot?.toList ⊆ held r.regs) : r.Lays k [] true r' := by
  obtain ⟨-, rfl⟩ := set_eq_ok h
  refine ⟨(List.append_nil _).symm, .nil k _ List.length_set (fun s hs => ?_)⟩
  rcases List.mem_append.mp (held_set hs) with hs | hs
  · exact hb hs
  · exact hs

/-- A register that moves to the slot that an operation fills. -/
theorem lays_residual {dst : Reg} {tainted : Bool} {op : Slot → Op}
    (h : r.residual dst tainted op = .ok r') (hplain : (op r.nextSlot).isPlain = true)
    (hdst : (op r.nextSlot).dst? = some r.nextSlot) (hleave : (op r.nextSlot).leave? = none)
    (hreads : (op r.nextSlot).reads ⊆ held r.regs) : ∃ ops, r.Lays k ops true r' := by
  unfold residual at h
  obtain ⟨⟨s, r₁⟩, hfresh, h⟩ := bind_eq_ok.mp h
  unfold fresh at hfresh
  obtain ⟨next, hnext, hfresh⟩ := bind_eq_ok.mp hfresh
  cases hfresh
  unfold nextSlot? at hnext
  split at hnext
  · cases hnext
    obtain ⟨-, rfl⟩ := set_eq_ok h
    refine ⟨[op r.nextSlot], Array.toList_push, .plain hplain hreads ?_ (Nat.le_succ _)
      List.length_set ?_ ?_⟩
    · intro s hs
      rw [hdst] at hs
      cases hs
      exact ⟨rfl, Nat.lt_succ_self _⟩
    · rw [hdst]
      exact held_set
    · intro l hl
      rw [hleave] at hl
      cases hl
  · cases hnext

/-- Instructions that are no jump, split or exit. -/
theorem compute_lays {i : Instr} (h : r.compute g i = .ok r') : ∃ ops, r.Lays k ops true r' := by
  have hmem : ∀ {reg : Reg} {b : Binding}, r.get reg = .ok b → b ∈ r.regs :=
    fun hb => List.mem_of_getElem? (get_eq_ok.mp hb)
  cases i with
  | const dst v => exact ⟨[], lays_set h (List.nil_subset _)⟩
  | move dst src =>
    rw [compute] at h
    obtain ⟨b, hb, h⟩ := bind_eq_ok.mp h
    refine ⟨[], lays_set h ?_⟩
    rw [← slot?_operand]
    exact operand_held (hmem hb)
  | binary op dst lhs rhs =>
    rw [compute] at h
    obtain ⟨a, ha, h⟩ := bind_eq_ok.mp h
    obtain ⟨b, hb, h⟩ := bind_eq_ok.mp h
    cases hfold : fold? op a b with
    | some v =>
      rw [hfold] at h
      exact ⟨[], lays_set h (List.nil_subset _)⟩
    | none =>
      rw [hfold] at h
      exact lays_residual h rfl rfl rfl
        (List.append_subset.mpr ⟨operand_held (hmem ha), operand_held (hmem hb)⟩)
  | input dst => exact lays_residual h rfl rfl rfl (List.nil_subset _)
  | print src =>
    rw [compute] at h
    obtain ⟨b, hb, h⟩ := bind_eq_ok.mp h
    cases h
    refine ⟨[.print b.operand], Array.toList_push, .plain rfl (operand_held (hmem hb)) ?_
      (Nat.le_refl _) rfl (List.Subset.refl _) ?_⟩
    · intro s hs
      cases hs
    · intro s hs
      cases hs
  | alloc dst fields =>
    rw [compute] at h
    obtain ⟨bs, hbs, h⟩ := bind_eq_ok.mp h
    cases hconst : consts? bs with
    | some vs =>
      rw [hconst] at h
      exact ⟨[], lays_set h (List.nil_subset _)⟩
    | none =>
      rw [hconst] at h
      exact lays_residual h rfl rfl rfl (operands_held (fun b hb => mem_of_getAll hbs hb))
  | getField dst obj index =>
    rw [compute] at h
    obtain ⟨b, hb, h⟩ := bind_eq_ok.mp h
    cases hfold : b.const?.bind (fun v => (v.field index).toOption) with
    | some v =>
      rw [hfold] at h
      exact ⟨[], lays_set h (List.nil_subset _)⟩
    | none =>
      rw [hfold] at h
      exact lays_residual h rfl rfl rfl (operand_held (hmem hb))
  | call dst func args =>
    rw [compute] at h
    obtain ⟨bs, hbs, h⟩ := bind_eq_ok.mp h
    exact lays_residual h rfl rfl rfl (operands_held (fun b hb => mem_of_getAll hbs hb))
  | jump | branch | mergePoint | promote | ret =>
    cases h
    exact ⟨[], lays_jump k r r.cursor⟩

/-- A step with which the walk goes on. -/
theorem lays_of_step_on {i : Instr} (h : r.step g i = .ok (.on r')) : ∃ ops, r.Lays k ops true r' := by
  cases treats_of_step h with
  | compute hi hc ha =>
    obtain ⟨ops, hops⟩ := compute_lays (k := k) hc
    rw [advance_eq_ok ha]
    exact ⟨ops ++ [], hops.append (lays_jump k _ _)⟩
  | jump => exact ⟨[], lays_jump k r _⟩
  | fold hb hv => exact ⟨[], lays_jump k r _⟩
  | pass hd ha =>
    rw [advance_eq_ok ha]
    exact ⟨[], lays_jump k r _⟩
  | skip ha =>
    rw [advance_eq_ok ha]
    exact ⟨[], lays_jump k r _⟩

/-- Leaving where the walk stands. -/
theorem lays_leaveHere {kind : LeaveKind} (hk : r.regs.length = k)
    (hkind : ∀ x, kind = .returned x → x.slot?.toList ⊆ held r.regs) :
    r.Lays k [.exit (r.leaveAt r.loc kind)] false (r.leaveHere kind) := by
  refine ⟨Array.toList_push, .exit ?_ hk⟩
  refine List.append_subset.mpr ⟨?_, List.Subset.refl _⟩
  cases kind with
  | returned x => exact hkind x rfl
  | mergePoint | promotion | fallback => exact List.nil_subset _

theorem lays_of_step_ends {i : Instr} (hk : r.regs.length = k) (h : r.step g i = .ok (.ends r')) :
    ∃ ops, r.Lays k ops false r' := by
  cases treats_of_step h with
  | arrive hd => exact ⟨_, lays_leaveHere hk nofun⟩
  | promote => exact ⟨_, lays_leaveHere hk nofun⟩
  | ret hb =>
    refine ⟨_, lays_leaveHere hk (fun x hx => ?_)⟩
    cases hx
    exact operand_held (List.mem_of_getElem? hb)

theorem lays_keepArm {cond : Operand} (hk : r.regs.length = k)
    (hcond : cond.slot?.toList ⊆ held r.regs) (taken : Bool) (elsePc : Nat) :
    r.Lays k [.guard cond taken (r.leaveAt r.loc .fallback)] true (r.keepArm cond taken elsePc) := by
  refine ⟨Array.toList_push, .plain rfl ?_ nofun (Nat.le_refl _) rfl (List.Subset.refl _) ?_⟩
  · exact List.append_subset.mpr ⟨hcond, List.append_subset.mpr
      ⟨List.nil_subset _, List.Subset.refl _⟩⟩
  · intro l hl
    cases hl
    exact hk

-- ============================================================================
-- Splits
-- ============================================================================

/-- A register that is kept lives where both arms have it. -/
theorem mergeReg_keep_slot {t e b : Binding} (h : mergeReg t e = .keep b) :
    b.slot?.toList ⊆ t.slot?.toList ∧ b.slot?.toList ⊆ e.slot?.toList := by
  unfold mergeReg at h
  split at h
  · next heq =>
    cases h
    rw [heq]
    exact ⟨List.Subset.refl _, List.Subset.refl _⟩
  · split at h
    · next hsame =>
      -- both are fixed, so neither lives in a slot
      cases t with
      | slot s d => exact absurd hsame Bool.false_ne_true
      | fixed a =>
        cases e with
        | slot s d => exact absurd hsame Bool.false_ne_true
        | fixed c =>
          cases h
          split
          · exact ⟨List.nil_subset _, List.nil_subset _⟩
          · exact ⟨List.nil_subset _, List.nil_subset _⟩
    · split at h
      · cases h
      · split at h
        · cases h
        · cases h

/-- A register that moves to the next slot, before others do. -/
theorem lays_materialize {bs bs' : List Binding} {b : Binding} {n n' : Nat} (tainted : Bool)
    (h : Op.Lays k bs (n + 1) ops true bs' n') :
    Op.Lays k (b :: bs) n (materialize n b :: ops) true (.slot n tainted :: bs') n' := by
  have hmove : Op.Lays k (b :: bs) n [materialize n b] true (.slot n tainted :: bs) (n + 1) := by
    have hheld : held (.slot n tainted :: bs) ⊆ [n] ++ held (b :: bs) := by
      intro s hs
      rcases List.mem_cons.mp hs with rfl | hs
      · exact List.mem_append_left _ (List.mem_singleton.mpr rfl)
      · refine List.mem_append_right _ ?_
        rw [held_cons]
        exact List.mem_append_right _ hs
    have hdst : ∀ s, some n = some s → s = n ∧ n < n + 1 := by
      intro s hs
      cases hs
      exact ⟨rfl, Nat.lt_succ_self n⟩
    cases b with
    | fixed c => exact .plain rfl (List.nil_subset _) hdst (Nat.le_succ n) rfl hheld nofun
    | slot s d =>
      refine .plain rfl (fun s' hs => ?_) hdst (Nat.le_succ n) rfl hheld nofun
      exact mem_held List.mem_cons_self (Option.mem_toList.mp hs)
  exact hmove.append (h.keep (List.Subset.refl _))

/-- Merging registers fills new slots in both arms alike. -/
theorem lays_of_weave {next : Slot} {ts es : List Binding} {w : Weave}
    (hlen : ts.length = es.length) (h : weave next ts es = .ok w) :
    Op.Lays k ts next w.thenOps true w.regs w.nextSlot ∧
      Op.Lays k es next w.elseOps true w.regs w.nextSlot := by
  induction ts generalizing es next w with
  | nil =>
    cases es with
    | cons e es => cases hlen
    | nil =>
      cases h
      exact ⟨.nil k _ rfl (List.Subset.refl _), .nil k _ rfl (List.Subset.refl _)⟩
  | cons t ts ih =>
    cases es with
    | nil => cases hlen
    | cons e es =>
      have hlen' : ts.length = es.length := Nat.succ.inj hlen
      rcases weave_cons_eq_ok h with ⟨b, w', hm, hw, rfl⟩ | ⟨w', -, hw, rfl⟩
      · obtain ⟨ht, he⟩ := mergeReg_keep_slot hm
        obtain ⟨iht, ihe⟩ := ih hlen' hw
        exact ⟨iht.keep ht, ihe.keep he⟩
      · obtain ⟨iht, ihe⟩ := ih hlen' hw
        exact ⟨lays_materialize _ iht, lays_materialize _ ihe⟩

/-- What merging two arms gives. -/
theorem lays_of_mergeArms {a b q : Region} {thenOps elseOps : List Op}
    (h : mergeArms a b = .ok (.merged thenOps elseOps q)) :
    ∃ tops eops, thenOps = a.ops.toList ++ tops ∧ elseOps = b.ops.toList ++ eops ∧
      Op.Lays k a.regs (max a.nextSlot b.nextSlot) tops true q.regs q.nextSlot ∧
      Op.Lays k b.regs (max a.nextSlot b.nextSlot) eops true q.regs q.nextSlot := by
  obtain ⟨hmet, -, w, hw, rfl, rfl, rfl⟩ := mergeArms_eq_merged h
  obtain ⟨ht, he⟩ := lays_of_weave (k := k) hmet.length_eq hw
  exact ⟨w.thenOps, w.elseOps, rfl, rfl, ht, he⟩

section Rejoin

variable {a b : Region} {cond : Operand} {thenOps elseOps : List Op}

/-- A split is closed with two arms that hand the registers on alike. -/
theorem lays_closeSplit (r q : Region) (hops : q.ops = r.ops) (spent : Nat)
    (hcond : cond.slot?.toList ⊆ held r.regs) {thenGoes elseGoes : Bool}
    (ht : Op.Lays k r.regs r.nextSlot thenOps thenGoes q.regs q.nextSlot)
    (he : Op.Lays k r.regs r.nextSlot elseOps elseGoes q.regs q.nextSlot) :
    r.Lays k [.branch cond thenOps elseOps] (thenGoes || elseGoes)
      (q.closeSplit cond spent thenOps elseOps) := by
  refine ⟨?_, ht.branch hcond he⟩
  show (q.ops.push (.branch cond thenOps elseOps)).toList = _
  rw [Array.toList_push, hops]

/-- Two walked arms put together. The second starts from the slots that the first
has left, and the walk goes on from those that the second has left, so no two
paths that meet again have filled the same slot differently. -/
theorem lays_of_rejoin {aops bops : List Op} {elsePc : Nat} {join : Option Nat}
    {thenJoined elseJoined : Bool} (hk : r.regs.length = k)
    (hcond : cond.slot?.toList ⊆ held r.regs) (ha : (r.thenArm join).Lays k aops thenJoined a)
    (hb : (r.elseArm a elsePc join).Lays k bops elseJoined b)
    (h : r.rejoin cond a b thenJoined elseJoined = .ok (goes, r')) :
    ∃ ops, r.Lays k ops goes r' := by
  have haops : aops = a.ops.toList := ha.ops_eq.symm
  have hbops : bops = b.ops.toList := hb.ops_eq.symm
  subst haops hbops
  have hat : Op.Lays k r.regs r.nextSlot a.ops.toList thenJoined a.regs a.nextSlot := ha.lays
  have hbt : Op.Lays k r.regs (max r.nextSlot a.nextSlot) b.ops.toList elseJoined b.regs
      b.nextSlot := hb.lays
  have hra : r.nextSlot ≤ a.nextSlot := hat.next_le
  have hab : max r.nextSlot a.nextSlot ≤ b.nextSlot := hbt.next_le
  have hrb : r.nextSlot ≤ max r.nextSlot a.nextSlot := Nat.le_max_left _ _
  unfold rejoin at h
  cases thenJoined with
  | false =>
    cases elseJoined with
    | false =>
      cases h
      have hnext : (r.reserve b).nextSlot = b.nextSlot := by simp only [reserve]; omega
      have hsplit := lays_closeSplit r (r.reserve b) rfl b.steps hcond
        ((hat.of_leaves rfl).mono (Nat.le_refl _) (by omega))
        ((hbt.of_leaves rfl).mono hrb (by omega))
      exact ⟨_, hsplit⟩
    | true =>
      cases h
      have hnext : ((r.reserve a).continueFrom b).nextSlot = b.nextSlot := by
        simp only [reserve, continueFrom]; omega
      have hsplit := lays_closeSplit r ((r.reserve a).continueFrom b) rfl b.steps hcond
        ((hat.of_leaves hbt.length_eq).mono (Nat.le_refl _) (by omega))
        (hbt.mono hrb (by omega))
      exact ⟨_, hsplit⟩
  | true =>
    have hfirst : ∀ {eops : List Op}, Op.Lays k r.regs (max r.nextSlot a.nextSlot) eops false b.regs
        b.nextSlot → ∃ ops, r.Lays k ops true (((r.reserve b).continueFrom a).closeSplit cond
          b.steps a.ops.toList eops) := by
      intro eops he
      have hnext : ((r.reserve b).continueFrom a).nextSlot = b.nextSlot := by
        simp only [reserve, continueFrom]; omega
      have hsplit := lays_closeSplit r ((r.reserve b).continueFrom a) rfl b.steps hcond
        (hat.mono (Nat.le_refl _) (by omega)) ((he.of_leaves hat.length_eq).mono hrb (by omega))
      exact ⟨_, hsplit⟩
    cases elseJoined with
    | false =>
      cases h
      exact hfirst hbt
    | true =>
      obtain ⟨merge, hmerge, h⟩ := bind_eq_ok.mp h
      cases merge with
      | merged thenOps elseOps q =>
        cases h
        obtain ⟨tops, eops, rfl, rfl, ht, he⟩ := lays_of_mergeArms (k := k) hmerge
        have hq := ht.next_le
        have hnext : (r.continueFrom q).nextSlot = q.nextSlot := by
          simp only [continueFrom]; omega
        have hthen := (hat.mono (Nat.le_refl _) (Nat.le_max_left _ b.nextSlot)).append ht
        have helse := (hbt.mono hrb (Nat.le_max_right a.nextSlot _)).append he
        have hsplit := lays_closeSplit r (r.continueFrom q) rfl b.steps hcond
          (hthen.mono (Nat.le_refl _) (by omega)) (helse.mono (Nat.le_refl _) (by omega))
        exact ⟨_, hsplit⟩
      | clash a' b' reg conflict =>
        cases h
        -- the second arm leaves where the first one goes on
        have hops : (b.leaveHere .fallback).ops.toList =
            b.ops.toList ++ [.exit (b.leaveAt b.loc .fallback)] := Array.toList_push
        rw [hops]
        have hleave : b.Lays k [.exit (b.leaveAt b.loc .fallback)] false (b.leaveHere .fallback) :=
          lays_leaveHere (hbt.length_eq.trans hk) nofun
        exact hfirst (hbt.append hleave.lays)

end Rejoin

-- ============================================================================
-- Walks
-- ============================================================================

/-- Counting an instruction changes no register and no slot. -/
theorem Begins.lays {r₁ : Region} {i : Instr} (hb : Begins g r r₁ i)
    (h : r₁.Lays k ops goes r') : r.Lays k ops goes r' := by
  rw [tick_eq_ok hb.tick] at h
  exact ⟨h.ops_eq, h.lays⟩

theorem Begins.length_eq {r₁ : Region} {i : Instr} (hb : Begins g r r₁ i) :
    r₁.regs.length = r.regs.length := by
  rw [tick_eq_ok hb.tick]

/-- The operations of a walk hand its registers on. -/
theorem Walks.lays {j : Bool} (h : Walks g r j r') (hk : r.regs.length = k) :
    ∃ ops, r.Lays k ops j r' := by
  induction h with
  | joined h => exact ⟨[], lays_jump k _ _⟩
  | ends hb hs =>
    obtain ⟨ops, hops⟩ := lays_of_step_ends (hb.length_eq.trans hk) hs
    exact ⟨ops, hb.lays hops⟩
  | on hb hs hw ih =>
    obtain ⟨ops, hops⟩ := lays_of_step_on (k := k) hs
    obtain ⟨ops', hops'⟩ := ih (hops.lays.length_eq.trans (hb.length_eq.trans hk))
    exact ⟨_, hb.lays (hops.append hops')⟩
  | @keep r r₁ r' i cond elsePc join taken j hb hs hw ih =>
    have hk₁ := hb.length_eq.trans hk
    obtain ⟨reg, c, -, hreg, rfl⟩ := step_split hs
    have hops := lays_keepArm hk₁ (operand_held (List.mem_of_getElem? hreg)) taken elsePc
    obtain ⟨ops', hops'⟩ := ih hk₁
    exact ⟨_, hb.lays (hops.append hops')⟩
  | @rejoin r r₁ r₂ r' a b i cond elsePc join tj ej j hb hs hsimple ht he hj hw iht ihe ih =>
    have hk₁ := hb.length_eq.trans hk
    obtain ⟨reg, c, -, hreg, rfl⟩ := step_split hs
    obtain ⟨aops, ha⟩ := iht hk₁
    obtain ⟨bops, hb'⟩ := ihe hk₁
    obtain ⟨ops, hops⟩ := lays_of_rejoin hk₁ (operand_held (List.mem_of_getElem? hreg)) ha hb' hj
    obtain ⟨ops', hops'⟩ := ih (hops.lays.length_eq.trans hk₁)
    exact ⟨_, hb.lays (hops.append hops')⟩
  | @part r r₁ r' a b i cond elsePc join tj ej hb hs hsimple ht he hj iht ihe =>
    have hk₁ := hb.length_eq.trans hk
    obtain ⟨reg, c, -, hreg, rfl⟩ := step_split hs
    obtain ⟨aops, ha⟩ := iht hk₁
    obtain ⟨bops, hb'⟩ := ihe hk₁
    obtain ⟨ops, hops⟩ := lays_of_rejoin hk₁ (operand_held (List.mem_of_getElem? hreg)) ha hb' hj
    exact ⟨ops, hb.lays hops⟩

-- ============================================================================
-- Committed traces
-- ============================================================================

/-- The regions that an engine makes of a frame: after a merge point, after a
promotion site, or anywhere with nothing fixed. -/
inductive Opens (f : Frame) : Region → Prop where
  | mergePoint {loc : Location} {greens : List Reg} {r : Region}
    (h : atMergePoint loc greens f = .ok r) : Opens f r
  | promotion {site : Location} {reg : Reg} {r : Region} (h : atPromotion site reg f = .ok r) :
    Opens f r
  | generic (loc : Location) : Opens f (.generic loc f)

theorem Opens.eq_entering {f : Frame} (h : Opens f r) : ∃ loc origin, r = entering loc f origin := by
  cases h with
  | mergePoint h =>
    obtain ⟨next, -, h⟩ := bind_eq_ok.mp h
    cases h
    exact ⟨_, _, rfl⟩
  | promotion h =>
    obtain ⟨next, -, h⟩ := bind_eq_ok.mp h
    cases h
    exact ⟨_, _, rfl⟩
  | generic loc => exact ⟨_, _, rfl⟩

/-- At the entry, registers live in their own slots. -/
theorem held_entering (loc : Location) (f : Frame) (origin : Reg → Option Origin) :
    held (entering loc f origin).regs ⊆ List.range f.size := by
  intro s hs
  obtain ⟨b, hb, hbs⟩ := List.mem_filterMap.mp hs
  obtain ⟨i, hi⟩ := List.getElem?_of_mem hb
  obtain ⟨c, hc, rfl⟩ := getElem?_entering hi
  have hlt : i < f.size := (List.getElem?_eq_some_iff.mp hc).1
  rcases entryBinding_cases (origin i) i c with ⟨known, he⟩ | he
  · rw [he] at hbs
    cases hbs
  · rw [he] at hbs
    cases hbs
    exact List.mem_range.mpr hlt

/-- Operations that all leave, from a region whose registers live in its first
slots, make a well-formed trace. -/
theorem Lays.wellFormed (h : r.Lays k ops false r') (hops : r.ops = #[]) (hk : r.regs.length = k)
    (hnext : r.nextSlot = k) (hheld : held r.regs ⊆ List.range k) : r'.toTrace.WellFormed := by
  have heq : r'.toTrace.ops = ops := by
    show r'.ops.toList = ops
    rw [h.ops_eq, hops]
    rfl
  have hreg : r'.toTrace.registers = k := h.lays.length_eq.trans hk
  have hslots : k ≤ r'.toTrace.slots := hnext ▸ h.lays.next_le
  have hpath : ∀ p ∈ Op.pathsAll ops, p.Threads k r.regs k r'.regs r'.toTrace.slots :=
    fun p hp => hnext ▸ h.lays.threads p hp
  have hfed : ∀ p ∈ Op.pathsAll ops, Op.Fed (List.range k) p.ops :=
    fun p hp => (hpath p hp).fed.mono hheld
  -- every operation lies on a path
  have hon : ∀ op ∈ Op.nestedAll ops, ∃ p ∈ Op.pathsAll ops, op ∈ p.ops :=
    fun op hop => Op.exists_path_of_mem_nestedAll ops h.lays.neat hop
  have hdst : ∀ op ∈ Op.nestedAll ops, ∀ s : Nat, op.dst? = some s →
      k ≤ s ∧ s < r'.toTrace.slots := by
    intro op hop s hs
    obtain ⟨p, hp, hmem⟩ := hon op hop
    exact (hpath p hp).range s (Op.mem_written.mpr ⟨op, hmem, hs⟩)
  rw [← heq] at hpath hfed hon hdst
  refine ⟨hreg ▸ hslots, hreg ▸ hfed, fun p hp => (hpath p hp).once, fun p hp => ?_,
    heq ▸ h.lays.neat, fun op hop => ⟨fun s hs => ?_, fun s hs => (hdst op hop s hs).2⟩,
    fun op hop s hs => hreg ▸ (hdst op hop s hs).1, fun op hop l hl => ?_⟩
  · have hgoes : p.goes = false := h.lays.closed_of_not rfl p (heq ▸ hp)
    have hshape := Op.shaped_of_mem_pathsAll _ hp
    rw [Op.Path.Shaped, hgoes] at hshape
    exact ⟨hgoes, hshape⟩
  · obtain ⟨p, hp, hmem⟩ := hon op hop
    rcases (hfed p hp).reads_mem hmem hs with hs | hs
    · exact Nat.lt_of_lt_of_le (List.mem_range.mp hs) hslots
    · exact ((hpath p hp).range s hs).2
  · obtain ⟨p, hp, hmem⟩ := hon op hop
    exact ((hpath p hp).rebuilds op hmem l hl).trans hreg.symm

theorem wellFormed_of_specialize {f : Frame} {t : Trace} (hr : Opens f r)
    (ht : r.specialize g = .ok (.committed t)) : t.WellFormed := by
  obtain ⟨r', hw, rfl⟩ := specialize_eq_committed ht
  obtain ⟨loc, origin, rfl⟩ := hr.eq_entering
  obtain ⟨ops, hops⟩ := hw.lays (length_entering loc f origin)
  exact hops.wellFormed rfl (length_entering loc f origin) rfl (held_entering loc f origin)

/-- Every committed trace is well formed. So, with its useless operations or
without them, a run of it never comes to the end of the operations and never
looks for a slot that is not there. -/
theorem committed_wellFormed {f : Frame} {t : Trace} (hr : Opens f r)
    (ht : r.specialize g = .ok (.committed t)) :
    t.WellFormed ∧ ∀ (m : Machine) (fuel : Nat) (f' : Frame) (io : Console) (simplifies : Bool),
      ((if simplifies then t.simplify else t).run m fuel f' io).FailsBy
        (fun e => e ≠ .outOfRange ∧ ∀ loc, e ≠ .program (.unitRanPast loc)) := by
  have hwf := wellFormed_of_specialize hr ht
  refine ⟨hwf, fun m fuel f' io simplifies => ?_⟩
  have hmachine : ∀ e, m.MayFail e → e ≠ .outOfRange ∧ ∀ loc, e ≠ .program (.unitRanPast loc) := by
    intro e he
    cases he <;> exact ⟨nofun, nofun⟩
  by_cases hsize : f'.size = t.registers
  · cases simplifies with
    | true => exact fun e s h => hmachine e (hwf.failsBy_run_simplify hsize fuel io e s h)
    | false => exact fun e s h => hmachine e (hwf.failsBy_run hsize fuel io e s h)
  · -- another number of registers is refused before anything runs
    have hrefused : (if simplifies then t.simplify else t).run m fuel f' io =
        .failed (.program (.unitFrame t.entry f'.size t.registers)) io := by
      cases simplifies <;> exact if_neg hsize
    rw [hrefused]
    exact .failed ⟨nofun, nofun⟩ io

/-- A loop that grades its input: a split inside of an arm of another one, and
three values that meet in one register. -/
def grading : Function :=
  { name := "grading", registers := 2,
    code := #[.mergePoint [], .input 0, .branch 0 8 (some 9), .branch 1 6 (some 7),
      .const 1 (.int 1), .jump 7, .const 1 (.int 2), .jump 9, .const 1 (.int 3), .print 1,
      .jump 0] }

/-- The loop as a program. -/
def gradingProgram : Program :=
  { functions := #[grading], entry := 0, facts := .ofFunctions #[grading], faultless := by decide,
    facts_eq := rfl }

/-- What is left of a turn of the loop. Both splits fill a slot of their own. -/
def gradingTrace : Trace :=
  { entry := ⟨0, 1⟩, slots := 5, registers := 2,
    ops := [.input 2,
      .branch (.slot 2)
        [.branch (.slot 1) [.const 3 (.int 1)] [.const 3 (.int 2)], .copy 4 3]
        [.const 4 (.int 3)],
      .print (.slot 4), .exit ⟨⟨0, 0⟩, .mergePoint, [.slot 2 true, .slot 4 false]⟩] }

/-- Two splits, one inside of the other, of which all arms meet again. -/
theorem committed_wellFormed_grading :
    (generic ⟨0, 1⟩ (Frame.blank 2)).specialize ⟨gradingProgram, {}, {}, {}⟩ =
        .ok (.committed gradingTrace) ∧
      gradingTrace.WellFormed ∧ (Op.pathsAll gradingTrace.ops).length = 3 := by
  have hr : Opens (Frame.blank 2) (generic ⟨0, 1⟩ (Frame.blank 2)) := .generic ⟨0, 1⟩
  have ht : (generic ⟨0, 1⟩ (Frame.blank 2)).specialize ⟨gradingProgram, {}, {}, {}⟩ =
      .ok (.committed gradingTrace) := by with_unfolding_all rfl
  exact ⟨ht, (committed_wellFormed hr ht).1, rfl⟩

end Region

end HotPath
