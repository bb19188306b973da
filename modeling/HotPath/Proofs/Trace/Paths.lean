/-
  HotPath.Proofs.Trace.Paths

  The paths through the operations of a trace, and what makes a trace well
  formed (`Trace.WellFormed`): on every path slots are filled before they are
  read and never filled twice, and every path ends with an exit.

    * `Op.pathsAll` lists the paths. A run that comes to the end of its
      operations has taken one of them (`Op.exists_path_of_going`), and where
      nothing follows an operation that always leaves, every operation lies on
      one (`Op.exists_path_of_mem_nestedAll`).
    * Operations whose slots are all there end with no faults but the machine's
      (`Op.failsBy_runAll`), so a well-formed trace does
      (`Trace.WellFormed.failsBy_run`).
-/
import HotPath.Proofs.Machine.Faults
import HotPath.Proofs.Trace.Simplify

namespace HotPath

open Trace Trace.Progress

namespace Op

-- ============================================================================
-- Operations and their slots
-- ============================================================================

/-- The slots that an operation reads itself, before any nested in it. -/
def reads : Op → List Slot
  | .const .. => []
  | .input _ => []
  | .copy _ src => [src]
  | .binary _ _ lhs rhs => lhs.slot?.toList ++ rhs.slot?.toList
  | .print src => src.slot?.toList
  | .alloc _ fields => fields.filterMap Operand.slot?
  | .getField _ obj _ => obj.slot?.toList
  | .call _ _ args => args.filterMap Operand.slot?
  | .guard cond _ leave => cond.slot?.toList ++ leave.uses
  | .branch cond _ _ => cond.slot?.toList
  | .exit leave => leave.uses

/-- The slot that an operation fills, if it does. -/
def dst? : Op → Option Slot
  | .const dst _ => some dst
  | .copy dst _ => some dst
  | .binary _ dst _ _ => some dst
  | .input dst => some dst
  | .alloc dst _ => some dst
  | .getField dst _ _ => some dst
  | .call dst _ _ => some dst
  | .print _ | .guard .. | .branch .. | .exit _ => none

/-- How an operation can leave the trace, if it can. -/
def leave? : Op → Option Leave
  | .guard _ _ leave => some leave
  | .exit leave => some leave
  | _ => none

/-- The slots that operations fill, in order; nested operations do not count. -/
def written (ops : List Op) : List Slot := ops.filterMap dst?

/-- Operations in a row read only slots that are there or that one of them has
filled before. -/
def Fed (avail : List Slot) : List Op → Prop
  | [] => True
  | op :: ops => (∀ s ∈ op.reads, s ∈ avail) ∧ Fed (op.dst?.toList ++ avail) ops

mutual

/-- An operation and all that are nested in it. -/
def nested : Op → List Op
  | .branch cond thenOps elseOps =>
    .branch cond thenOps elseOps :: (nestedAll thenOps ++ nestedAll elseOps)
  | op => [op]

/-- Operations and all that are nested in them. -/
def nestedAll : List Op → List Op
  | [] => []
  | op :: ops => nested op ++ nestedAll ops

end

theorem mem_nested_self (op : Op) : op ∈ op.nested := by
  cases op with
  | branch => exact List.mem_cons_self
  | _ => exact List.mem_singleton_self _

-- ============================================================================
-- Paths
-- ============================================================================

/-- A way through operations: those that it takes, and whether it comes to their
end. Otherwise its last one leaves. -/
structure Path where
  ops : List Op
  goes : Bool

namespace Path

/-- A path, and then another if the first comes to its end. -/
def andThen (p q : Path) : Path := bif p.goes then ⟨p.ops ++ q.ops, q.goes⟩ else p

theorem andThen_assoc (p q r : Path) : (p.andThen q).andThen r = p.andThen (q.andThen r) := by
  obtain ⟨xs, px⟩ := p
  obtain ⟨ys, py⟩ := q
  cases px with
  | false => rfl
  | true =>
    cases py with
    | false => rfl
    | true => simp only [andThen, cond_true, List.append_assoc]

theorem andThen_nil (p : Path) : p.andThen ⟨[], true⟩ = p := by
  obtain ⟨xs, px⟩ := p
  cases px with
  | false => rfl
  | true => simp only [andThen, cond_true, List.append_nil]

/-- The path ends with an exit, and takes none before. -/
def Closed (p : Path) : Prop :=
  ∃ pre l, p.ops = pre ++ [.exit l] ∧ ∀ op ∈ pre, op.isExit = false

/-- A path that comes to its end takes no exit, and one that does not is closed
by one. -/
def Shaped (p : Path) : Prop :=
  bif p.goes then ∀ op ∈ p.ops, op.isExit = false else p.Closed

theorem Shaped.andThen {p q : Path} (hp : p.Shaped) (hq : q.Shaped) : (p.andThen q).Shaped := by
  obtain ⟨xs, px⟩ := p
  obtain ⟨ys, py⟩ := q
  cases px with
  | false => exact hp
  | true =>
    have hp : ∀ op ∈ xs, op.isExit = false := hp
    cases py with
    | true =>
      intro op hop
      rcases List.mem_append.mp hop with h | h
      · exact hp op h
      · exact hq op h
    | false =>
      obtain ⟨pre, l, hops, hpre⟩ := hq
      have hops : ys = pre ++ [.exit l] := hops
      refine ⟨xs ++ pre, l, ?_, ?_⟩
      · show xs ++ ys = _
        rw [hops, List.append_assoc]
      · intro op hop
        rcases List.mem_append.mp hop with h | h
        · exact hp op h
        · exact hpre op h

end Path

mutual

/-- The paths through an operation. -/
def paths : Op → List Path
  | .branch cond thenOps elseOps =>
    (pathsAll thenOps ++ pathsAll elseOps).map
      (fun p => ⟨.branch cond thenOps elseOps :: p.ops, p.goes⟩)
  | .exit leave => [⟨[.exit leave], false⟩]
  | op => [⟨[op], true⟩]

/-- The paths through operations in order. -/
def pathsAll : List Op → List Path
  | [] => [⟨[], true⟩]
  | op :: ops => op.paths.flatMap (fun p => (pathsAll ops).map p.andThen)

end

mutual

/-- Nothing nested in the operation follows one that always leaves. -/
def Neat : Op → Prop
  | .branch _ thenOps elseOps => NeatAll thenOps ∧ NeatAll elseOps
  | _ => True

/-- No operation, nested ones included, follows one that always leaves. -/
def NeatAll : List Op → Prop
  | [] => True
  | op :: ops => op.Neat ∧ NeatAll ops ∧ (ops ≠ [] → ∃ p ∈ op.paths, p.goes = true)

end

theorem mem_pathsAll_cons {op : Op} {ops : List Op} {p : Path} :
    p ∈ pathsAll (op :: ops) ↔ ∃ q ∈ op.paths, ∃ q' ∈ pathsAll ops, q.andThen q' = p := by
  simp only [pathsAll, List.mem_flatMap, List.mem_map]

theorem mem_pathsAll_append {xs ys : List Op} {p : Path} :
    p ∈ pathsAll (xs ++ ys) ↔ ∃ q ∈ pathsAll xs, ∃ q' ∈ pathsAll ys, q.andThen q' = p := by
  induction xs generalizing p with
  | nil =>
    constructor
    · intro h
      exact ⟨⟨[], true⟩, List.mem_singleton.mpr rfl, p, h, rfl⟩
    · rintro ⟨q, hq, q', hq', rfl⟩
      rw [List.mem_singleton.mp hq]
      exact hq'
  | cons x xs ih =>
    rw [List.cons_append, mem_pathsAll_cons]
    constructor
    · rintro ⟨q, hq, q', hq', rfl⟩
      obtain ⟨r, hr, r', hr', rfl⟩ := ih.mp hq'
      exact ⟨_, mem_pathsAll_cons.mpr ⟨q, hq, r, hr, rfl⟩, r', hr', Path.andThen_assoc _ _ _⟩
    · rintro ⟨q, hq, q', hq', rfl⟩
      obtain ⟨r, hr, r', hr', rfl⟩ := mem_pathsAll_cons.mp hq
      exact ⟨r, hr, _, ih.mpr ⟨r', hr', q', hq', rfl⟩, (Path.andThen_assoc _ _ _).symm⟩

theorem mem_pathsAll_singleton {op : Op} {p : Path} : p ∈ pathsAll [op] ↔ p ∈ op.paths := by
  rw [mem_pathsAll_cons]
  constructor
  · rintro ⟨q, hq, q', hq', rfl⟩
    rw [List.mem_singleton.mp hq', Path.andThen_nil]
    exact hq
  · intro h
    exact ⟨p, h, _, List.mem_singleton.mpr rfl, p.andThen_nil⟩

theorem mem_paths_branch {cond : Operand} {thenOps elseOps : List Op} {p : Path} :
    p ∈ (Op.branch cond thenOps elseOps).paths ↔
      ∃ q, (q ∈ pathsAll thenOps ∨ q ∈ pathsAll elseOps) ∧
        p = ⟨.branch cond thenOps elseOps :: q.ops, q.goes⟩ := by
  simp only [paths, List.mem_map, List.mem_append, eq_comm]

/-- An operation that is no branch and no exit. -/
def isPlain : Op → Bool
  | .branch .. | .exit _ => false
  | _ => true

theorem paths_of_isPlain {op : Op} (h : op.isPlain = true) : op.paths = [⟨[op], true⟩] := by
  cases op with
  | branch | exit => cases h
  | _ => rfl

theorem neat_of_isPlain {op : Op} (h : op.isPlain = true) : op.Neat := by
  cases op with
  | branch | exit => cases h
  | _ => trivial

mutual

/-- There is a path through every operation. -/
theorem exists_path : (op : Op) → ∃ p, p ∈ op.paths
  | .branch _ thenOps _ =>
    have ⟨q, hq⟩ := exists_pathAll thenOps
    ⟨_, mem_paths_branch.mpr ⟨q, Or.inl hq, rfl⟩⟩
  | .exit _ => ⟨_, List.mem_singleton.mpr rfl⟩
  | .const .. | .copy .. | .binary .. | .input _ | .print _ | .alloc .. | .getField .. | .call ..
  | .guard .. => ⟨_, List.mem_singleton.mpr rfl⟩

/-- There is a path through all operations. -/
theorem exists_pathAll : (ops : List Op) → ∃ p, p ∈ pathsAll ops
  | [] => ⟨_, List.mem_singleton.mpr rfl⟩
  | op :: ops =>
    have ⟨q, hq⟩ := exists_path op
    have ⟨q', hq'⟩ := exists_pathAll ops
    ⟨_, mem_pathsAll_cons.mpr ⟨q, hq, q', hq', rfl⟩⟩

end

mutual

theorem shaped_of_mem_paths {p : Path} : (op : Op) → p ∈ op.paths → p.Shaped
  | .branch cond thenOps elseOps, h => by
    obtain ⟨q, hq, rfl⟩ := mem_paths_branch.mp h
    have hshape : q.Shaped := by
      rcases hq with hq | hq
      · exact shaped_of_mem_pathsAll thenOps hq
      · exact shaped_of_mem_pathsAll elseOps hq
    have hop : Path.Shaped ⟨[.branch cond thenOps elseOps], true⟩ := by
      intro op hop
      rw [List.mem_singleton.mp hop]
      rfl
    exact hop.andThen hshape
  | .exit l, h => by
    rw [List.mem_singleton.mp h]
    exact ⟨[], l, rfl, nofun⟩
  | .const .., h | .copy .., h | .binary .., h | .input _, h | .print _, h | .alloc .., h
  | .getField .., h | .call .., h | .guard .., h => by
    rw [List.mem_singleton.mp h]
    intro op hop
    rw [List.mem_singleton.mp hop]
    rfl

/-- A path ends with an exit exactly if it does not come to the end of the
operations, and takes no exit before. -/
theorem shaped_of_mem_pathsAll {p : Path} : (ops : List Op) → p ∈ pathsAll ops → p.Shaped
  | [], h => by
    rw [List.mem_singleton.mp h]
    exact nofun
  | op :: ops, h => by
    obtain ⟨q, hq, q', hq', rfl⟩ := mem_pathsAll_cons.mp h
    exact (shaped_of_mem_paths op hq).andThen (shaped_of_mem_pathsAll ops hq')

end

mutual

theorem exists_path_of_mem_nested {x : Op} :
    (op : Op) → op.Neat → x ∈ op.nested → ∃ p ∈ op.paths, x ∈ p.ops
  | .branch cond thenOps elseOps, hn, hx => by
    rcases List.mem_cons.mp hx with rfl | hx
    · obtain ⟨q, hq⟩ := exists_pathAll thenOps
      exact ⟨_, mem_paths_branch.mpr ⟨q, Or.inl hq, rfl⟩, List.mem_cons_self⟩
    · rcases List.mem_append.mp hx with hx | hx
      · obtain ⟨q, hq, hmem⟩ := exists_path_of_mem_nestedAll thenOps hn.1 hx
        exact ⟨_, mem_paths_branch.mpr ⟨q, Or.inl hq, rfl⟩, List.mem_cons_of_mem _ hmem⟩
      · obtain ⟨q, hq, hmem⟩ := exists_path_of_mem_nestedAll elseOps hn.2 hx
        exact ⟨_, mem_paths_branch.mpr ⟨q, Or.inr hq, rfl⟩, List.mem_cons_of_mem _ hmem⟩
  | .exit _, _, hx | .const .., _, hx | .copy .., _, hx | .binary .., _, hx | .input _, _, hx
  | .print _, _, hx | .alloc .., _, hx | .getField .., _, hx | .call .., _, hx
  | .guard .., _, hx => ⟨_, List.mem_singleton.mpr rfl, hx⟩

/-- Where nothing follows an operation that always leaves, every operation lies
on a path. -/
theorem exists_path_of_mem_nestedAll {x : Op} :
    (ops : List Op) → NeatAll ops → x ∈ nestedAll ops → ∃ p ∈ pathsAll ops, x ∈ p.ops
  | [], _, hx => nomatch hx
  | op :: ops, ⟨hop, hops, hgoes⟩, hx => by
    rcases List.mem_append.mp hx with hx | hx
    · obtain ⟨q, hq, hmem⟩ := exists_path_of_mem_nested op hop hx
      obtain ⟨q', hq'⟩ := exists_pathAll ops
      refine ⟨_, mem_pathsAll_cons.mpr ⟨q, hq, q', hq', rfl⟩, ?_⟩
      unfold Path.andThen
      cases q.goes with
      | false => exact hmem
      | true => exact List.mem_append_left _ hmem
    · obtain ⟨q', hq', hmem⟩ := exists_path_of_mem_nestedAll ops hops hx
      have hne : ops ≠ [] := by
        rintro rfl
        cases hx
      obtain ⟨q, hq, hqgoes⟩ := hgoes hne
      refine ⟨_, mem_pathsAll_cons.mpr ⟨q, hq, q', hq', rfl⟩, ?_⟩
      unfold Path.andThen
      rw [hqgoes]
      exact List.mem_append_right _ hmem

end

/-- Operations after others that can come to their end. -/
theorem NeatAll.append {xs ys : List Op} (hx : NeatAll xs) (hy : NeatAll ys)
    (hgoes : ∃ p ∈ pathsAll xs, p.goes = true) : NeatAll (xs ++ ys) := by
  induction xs with
  | nil => exact hy
  | cons x xs ih =>
    obtain ⟨hop, hops, -⟩ := hx
    obtain ⟨p, hp, hpgoes⟩ := hgoes
    obtain ⟨q, hq, q', hq', rfl⟩ := mem_pathsAll_cons.mp hp
    -- a path that comes to the end of all comes to the end of each
    have hboth : q.goes = true ∧ q'.goes = true := by
      unfold Path.andThen at hpgoes
      cases hg : q.goes with
      | false =>
        rw [hg, cond_false, hg] at hpgoes
        cases hpgoes
      | true =>
        rw [hg, cond_true] at hpgoes
        exact ⟨rfl, hpgoes⟩
    exact ⟨hop, ih hops ⟨q', hq', hboth.2⟩, fun _ => ⟨q, hq, hboth.1⟩⟩

-- ============================================================================
-- Slots along a path
-- ============================================================================

theorem written_append (xs ys : List Op) : written (xs ++ ys) = written xs ++ written ys :=
  List.filterMap_append

theorem written_cons (op : Op) (ops : List Op) :
    written (op :: ops) = op.dst?.toList ++ written ops := by
  unfold written
  cases h : op.dst? with
  | none => rw [List.filterMap_cons_none h]; rfl
  | some s => rw [List.filterMap_cons_some h]; rfl

theorem mem_written {ops : List Op} {s : Slot} :
    s ∈ written ops ↔ ∃ op ∈ ops, op.dst? = some s := List.mem_filterMap

theorem Fed.mono {avail avail' : List Slot} (h : avail ⊆ avail') {ops : List Op}
    (hf : Fed avail ops) : Fed avail' ops := by
  induction ops generalizing avail avail' with
  | nil => trivial
  | cons op ops ih =>
    refine ⟨fun s hs => h (hf.1 s hs), ih ?_ hf.2⟩
    exact List.append_subset.mpr
      ⟨List.subset_append_left _ _, fun s hs => List.mem_append_right _ (h hs)⟩

/-- Operations in a row, fed by those before them. -/
theorem Fed.append {avail : List Slot} {xs ys : List Op} (hx : Fed avail xs)
    (hy : Fed (written xs ++ avail) ys) : Fed avail (xs ++ ys) := by
  induction xs generalizing avail with
  | nil => exact hy
  | cons x xs ih =>
    refine ⟨hx.1, ih hx.2 (hy.mono ?_)⟩
    rw [written_cons]
    intro s hs
    simp only [List.mem_append] at hs ⊢
    rcases hs with (hs | hs) | hs
    · exact Or.inr (Or.inl hs)
    · exact Or.inl hs
    · exact Or.inr (Or.inr hs)

/-- What an operation reads was there, or was filled on the way. -/
theorem Fed.reads_mem {avail : List Slot} {ops : List Op} (h : Fed avail ops) {op : Op}
    (hop : op ∈ ops) {s : Slot} (hs : s ∈ op.reads) : s ∈ avail ∨ s ∈ written ops := by
  induction ops generalizing avail with
  | nil => cases hop
  | cons x xs ih =>
    rw [written_cons, List.mem_append]
    rcases List.mem_cons.mp hop with rfl | hop
    · exact Or.inl (h.1 s hs)
    · rcases ih h.2 hop with hs | hs
      · rcases List.mem_append.mp hs with hs | hs
        · exact Or.inr (Or.inl hs)
        · exact Or.inl hs
      · exact Or.inr (Or.inr hs)

-- ============================================================================
-- Runs
-- ============================================================================

mutual

theorem exists_path_of_run_going {call : Machine.Callee} {slots slots' : Array Value}
    {io io' : Console} :
    (op : Op) → op.run call slots io = .going slots' io' → ∃ p ∈ op.paths, p.goes = true
  | .branch cond thenOps elseOps, h => by
    rw [run] at h
    cases hv : cond.eval slots with
    | error e =>
      rw [hv] at h
      cases h
    | ok v =>
      rw [hv] at h
      simp only [withValue] at h
      cases hb : v.truthy with
      | true =>
        rw [hb, if_pos rfl] at h
        obtain ⟨q, hq, hgoes⟩ := exists_path_of_going thenOps h
        exact ⟨_, mem_paths_branch.mpr ⟨q, Or.inl hq, rfl⟩, hgoes⟩
      | false =>
        rw [hb, if_neg Bool.false_ne_true] at h
        obtain ⟨q, hq, hgoes⟩ := exists_path_of_going elseOps h
        exact ⟨_, mem_paths_branch.mpr ⟨q, Or.inr hq, rfl⟩, hgoes⟩
  | .exit l, h => by
    rw [run, leave] at h
    cases he : l.exit slots with
    | ok e =>
      rw [he] at h
      cases h
    | error e =>
      rw [he] at h
      cases h
  | .const .., _ | .copy .., _ | .binary .., _ | .input _, _ | .print _, _ | .alloc .., _
  | .getField .., _ | .call .., _ | .guard .., _ => ⟨_, List.mem_singleton.mpr rfl, rfl⟩

/-- A run that comes to the end of its operations has taken a path there. -/
theorem exists_path_of_going {call : Machine.Callee} {slots slots' : Array Value}
    {io io' : Console} :
    (ops : List Op) → runAll call slots io ops = .going slots' io' →
      ∃ p ∈ pathsAll ops, p.goes = true
  | [], _ => ⟨_, List.mem_singleton.mpr rfl, rfl⟩
  | op :: ops, h => by
    rw [runAll_cons] at h
    cases hop : op.run call slots io with
    | going slots₁ io₁ =>
      rw [hop] at h
      obtain ⟨q, hq, hgoes⟩ := exists_path_of_run_going op hop
      obtain ⟨q', hq', hgoes'⟩ := exists_path_of_going ops h
      refine ⟨_, mem_pathsAll_cons.mpr ⟨q, hq, q', hq', rfl⟩, ?_⟩
      rw [Path.andThen, hgoes]
      exact hgoes'
    | left e io₁ =>
      rw [hop] at h
      cases h
    | failed e io₁ =>
      rw [hop] at h
      cases h
    | starved =>
      rw [hop] at h
      cases h

end

end Op

-- ============================================================================
-- Faults of a run
-- ============================================================================

theorem Operand.Below.exists_eval {slots : Array Value} {x : Operand} (h : x.Below slots.size) :
    ∃ v, x.eval slots = .ok v := by
  cases x with
  | const v => exact ⟨v, rfl⟩
  | slot s =>
    have hs : s < slots.size := h s rfl
    rw [eval, Array.getElem?_eq_getElem hs]
    exact ⟨_, rfl⟩

theorem Operand.exists_evalAll {slots : Array Value} {xs : List Operand}
    (h : ∀ x ∈ xs, x.Below slots.size) : ∃ vs, evalAll slots xs = .ok vs := by
  induction xs with
  | nil => exact ⟨[], rfl⟩
  | cons x xs ih =>
    obtain ⟨v, hv⟩ := (h x List.mem_cons_self).exists_eval
    obtain ⟨vs, hvs⟩ := ih (fun y hy => h y (List.mem_cons_of_mem _ hy))
    rw [evalAll, hv, hvs]
    exact ⟨_, rfl⟩

theorem Leave.exists_fill {slots : Array Value} {bs : List Binding}
    (h : ∀ b ∈ bs, b.Below slots.size) (i : Nat) (f : Frame) : ∃ f', fill slots i f bs = .ok f' := by
  induction bs generalizing i f with
  | nil => exact ⟨f, rfl⟩
  | cons b bs ih =>
    obtain ⟨v, hv⟩ := (h b List.mem_cons_self).operand.exists_eval
    rw [fill, hv]
    exact ih (fun c hc => h c (List.mem_cons_of_mem _ hc)) _ _

/-- Leaving with slots that are all there succeeds. -/
theorem Leave.Below.exists_exit {slots : Array Value} {l : Leave} (h : l.Below slots.size) :
    ∃ e, l.exit slots = .ok e := by
  obtain ⟨f, hf⟩ := Leave.exists_fill h.regs 0 (Frame.blank l.regs.length)
  unfold Leave.exit Leave.exitKind
  rw [hf]
  dsimp only
  cases hk : l.kind with
  | mergePoint | promotion | fallback => exact ⟨_, rfl⟩
  | returned x =>
    obtain ⟨v, hv⟩ := (h.value x hk).exists_eval
    simp only [hv]
    exact ⟨_, rfl⟩

namespace Trace.Progress

/-- All faults of a run are of a kind. -/
def FailsBy (kind : Fault → Prop) (p : Progress) : Prop := ∀ e io, p = .failed e io → kind e

variable {kind : Fault → Prop} {slots : Array Value}

theorem failsBy_going (slots : Array Value) (io : Console) : FailsBy kind (.going slots io) := nofun

theorem failsBy_failed {e : Fault} (h : kind e) (io : Console) : FailsBy kind (.failed e io) := by
  intro e' io' heq
  cases heq
  exact h

theorem failsBy_store {dst : Slot} (h : dst < slots.size) (io : Console) (v : Value) :
    FailsBy kind (store slots io dst v) := by
  rw [store, if_pos h]
  exact failsBy_going _ _

theorem failsBy_leave {l : Leave} (h : l.Below slots.size) (io : Console) :
    FailsBy kind (leave slots io l) := by
  obtain ⟨e, he⟩ := h.exists_exit
  rw [leave, he]
  exact nofun

end Trace.Progress

namespace Op

variable {m : Machine} {call : Machine.Callee}

mutual

theorem failsBy_run (hcall : call.FailsBy m.MayFail) {slots : Array Value} (io : Console) :
    (op : Op) → op.Below slots.size → (op.run call slots io).FailsBy m.MayFail
  | .const _ v, h => failsBy_store h io v
  | .copy _ src, h => by
    rw [run, Array.getElem?_eq_getElem h.2]
    exact failsBy_store h.1 io _
  | .binary op dst lhs rhs, h => by
    obtain ⟨a, ha⟩ := h.2.1.exists_eval
    obtain ⟨b, hb⟩ := h.2.2.exists_eval
    rw [run, ha, hb]
    simp only [withValue]
    cases op.eval a b with
    | error e => exact failsBy_failed (.runtime e) io
    | ok v => exact failsBy_store h.1 io v
  | .input _, h => failsBy_store h io.read.2 _
  | .print src, h => by
    obtain ⟨v, hv⟩ := Operand.Below.exists_eval h
    rw [run, hv]
    exact failsBy_going _ _
  | .alloc dst fields, h => by
    obtain ⟨vs, hvs⟩ := Operand.exists_evalAll h.2
    rw [run, hvs]
    exact failsBy_store h.1 io _
  | .getField dst obj index, h => by
    obtain ⟨v, hv⟩ := h.2.exists_eval
    rw [run, hv]
    simp only [withValue]
    cases v.field index with
    | error e => exact failsBy_failed (.runtime e) io
    | ok w => exact failsBy_store h.1 io w
  | .call dst func args, h => by
    obtain ⟨vs, hvs⟩ := Operand.exists_evalAll h.2
    rw [run, hvs]
    simp only [withValue]
    cases hc : call func vs io with
    | done v io' => exact failsBy_store h.1 io' v
    | failed e io' => exact failsBy_failed (hcall func vs io e io' hc) io'
    | starved => exact nofun
  | .guard cond expect l, h => by
    obtain ⟨v, hv⟩ := h.1.exists_eval
    rw [run, hv]
    simp only [withValue]
    split
    · exact failsBy_going _ _
    · exact failsBy_leave h.2 io
  | .branch cond thenOps elseOps, h => by
    obtain ⟨v, hv⟩ := h.1.exists_eval
    rw [run, hv]
    simp only [withValue]
    split
    · exact failsBy_runAll hcall io thenOps h.2.1
    · exact failsBy_runAll hcall io elseOps h.2.2
  | .exit _, h => failsBy_leave h io

/-- Operations whose slots are all there fail only as the machine does. -/
theorem failsBy_runAll (hcall : call.FailsBy m.MayFail) {slots : Array Value} (io : Console) :
    (ops : List Op) → AllBelow slots.size ops → (runAll call slots io ops).FailsBy m.MayFail
  | [], _ => failsBy_going _ _
  | op :: ops, h => by
    have hop := failsBy_run hcall io op h.1
    have hsize := hasSize_run call slots io op
    rw [runAll_cons]
    cases hr : op.run call slots io with
    | going slots' io' =>
      have hsize : slots'.size = slots.size := hsize slots' io' hr
      exact failsBy_runAll hcall io' ops (hsize ▸ h.2)
    | failed e io' => exact failsBy_failed (hop e io' hr) io'
    | left e io' => exact nofun
    | starved => exact nofun

end

theorem mem_uses_of_binding {l : Leave} {b : Binding} (hb : b ∈ l.regs) {s : Slot}
    (hs : b.slot? = some s) : s ∈ l.uses :=
  List.mem_append_right _ (List.mem_filterMap.mpr ⟨b, hb, hs⟩)

/-- What leaving reads is below a bound. -/
theorem leave_below_of_uses {l : Leave} {n : Nat} (h : ∀ s ∈ l.uses, s < n) : l.Below n where
  regs := fun _ hb s hs => h s (mem_uses_of_binding hb hs)
  value := by
    intro x hx s hs
    refine h s (List.mem_append_left _ ?_)
    rw [hx]
    exact Option.mem_toList.mpr hs

/-- The bound on what an operation itself reads and fills. -/
def Within (n : Nat) (op : Op) : Prop :=
  (∀ s ∈ op.reads, s < n) ∧ ∀ s, op.dst? = some s → s < n

theorem operand_below {x : Operand} {n : Nat} (h : ∀ s ∈ x.slot?.toList, s < n) : x.Below n :=
  fun s hs => h s (Option.mem_toList.mpr hs)

theorem operands_below {xs : List Operand} {n : Nat} (h : ∀ s ∈ xs.filterMap Operand.slot?, s < n) :
    ∀ x ∈ xs, x.Below n :=
  fun x hx s hs => h s (List.mem_filterMap.mpr ⟨x, hx, hs⟩)

mutual

theorem below_of_within {n : Nat} : (op : Op) → (∀ x ∈ op.nested, x.Within n) → op.Below n
  | .const dst _, h => (h _ List.mem_cons_self).2 dst rfl
  | .copy dst src, h =>
    have hop := h _ List.mem_cons_self
    ⟨hop.2 dst rfl, hop.1 src (List.mem_singleton.mpr rfl)⟩
  | .binary _ dst _ _, h =>
    have hop := h _ List.mem_cons_self
    ⟨hop.2 dst rfl, operand_below (fun s hs => hop.1 s (List.mem_append_left _ hs)),
      operand_below (fun s hs => hop.1 s (List.mem_append_right _ hs))⟩
  | .input dst, h => (h _ List.mem_cons_self).2 dst rfl
  | .print _, h => operand_below (h _ List.mem_cons_self).1
  | .alloc dst _, h =>
    have hop := h _ List.mem_cons_self
    ⟨hop.2 dst rfl, operands_below hop.1⟩
  | .getField dst _ _, h =>
    have hop := h _ List.mem_cons_self
    ⟨hop.2 dst rfl, operand_below hop.1⟩
  | .call dst _ _, h =>
    have hop := h _ List.mem_cons_self
    ⟨hop.2 dst rfl, operands_below hop.1⟩
  | .guard .., h =>
    have hop := h _ List.mem_cons_self
    ⟨operand_below (fun s hs => hop.1 s (List.mem_append_left _ hs)),
      leave_below_of_uses (fun s hs => hop.1 s (List.mem_append_right _ hs))⟩
  | .branch _ thenOps elseOps, h =>
    ⟨operand_below (h _ List.mem_cons_self).1,
      allBelow_of_within thenOps (fun x hx =>
        h x (List.mem_cons_of_mem _ (List.mem_append_left _ hx))),
      allBelow_of_within elseOps (fun x hx =>
        h x (List.mem_cons_of_mem _ (List.mem_append_right _ hx)))⟩
  | .exit _, h => leave_below_of_uses (h _ List.mem_cons_self).1

theorem allBelow_of_within {n : Nat} :
    (ops : List Op) → (∀ x ∈ nestedAll ops, x.Within n) → AllBelow n ops
  | [], _ => trivial
  | op :: ops, h =>
    ⟨below_of_within op (fun x hx => h x (List.mem_append_left _ hx)),
      allBelow_of_within ops (fun x hx => h x (List.mem_append_right _ hx))⟩

end

end Op

-- ============================================================================
-- Well-formed traces
-- ============================================================================

/-- A trace whose paths all fill slots before they read them, fill none twice and
end with an exit. -/
structure Trace.WellFormed (t : Trace) : Prop where
  registers_le : t.registers ≤ t.slots
  /-- On every path, what is read is a register at the entry or was filled before. -/
  fed : ∀ p ∈ Op.pathsAll t.ops, Op.Fed (List.range t.registers) p.ops
  /-- No path fills a slot twice. -/
  once : ∀ p ∈ Op.pathsAll t.ops, (Op.written p.ops).Nodup
  /-- Every path ends with an exit, its only one. -/
  closed : ∀ p ∈ Op.pathsAll t.ops, p.goes = false ∧ p.Closed
  /-- No operation follows one that always leaves. -/
  neat : Op.NeatAll t.ops
  /-- All slots exist. -/
  within : ∀ op ∈ Op.nestedAll t.ops, op.Within t.slots
  /-- The registers at the entry are never overwritten. -/
  spared : ∀ op ∈ Op.nestedAll t.ops, ∀ s, op.dst? = some s → t.registers ≤ s
  /-- Leaving rebuilds all registers. -/
  rebuilds : ∀ op ∈ Op.nestedAll t.ops, ∀ l, op.leave? = some l → l.regs.length = t.registers

namespace Trace

/-- A trace that cannot come to the end of its operations, and whose slots all
exist, fails only as the machine does. -/
theorem failsBy_run {t : Trace} {m : Machine} {f : Frame}
    (hbelow : Op.AllBelow (max t.slots t.registers) t.ops) (hsize : f.size = t.registers) {fuel : Nat}
    {io : Console}
    (hgoing : ∀ slots io', Op.runAll (m.call fuel 1) (t.entrySlots f) io t.ops ≠ .going slots io') :
    (t.run m fuel f io).FailsBy m.MayFail := by
  have hslots : (t.entrySlots f).size = max t.slots t.registers := size_entrySlots hsize
  have hfails := Op.failsBy_runAll (m.failsBy_call fuel 1) io t.ops (hslots ▸ hbelow)
  unfold run
  rw [if_pos hsize]
  cases hr : Op.runAll (m.call fuel 1) (t.entrySlots f) io t.ops with
  | going slots io' => exact absurd hr (hgoing slots io')
  | left e io' => exact .done e io'
  | failed e io' => exact .failed (hfails e io' hr) io'
  | starved => exact .starved

namespace WellFormed

variable {t : Trace} {m : Machine} {f : Frame}

theorem allBelow (h : t.WellFormed) : Op.AllBelow (max t.slots t.registers) t.ops :=
  (Op.allBelow_of_within t.ops h.within).mono (Nat.le_max_left _ _)

/-- A run of a well-formed trace always leaves. -/
theorem runAll_ne_going (h : t.WellFormed) (call : Machine.Callee) (slots slots' : Array Value)
    (io io' : Console) : Op.runAll call slots io t.ops ≠ .going slots' io' := by
  intro hr
  obtain ⟨p, hp, hgoes⟩ := Op.exists_path_of_going t.ops hr
  rw [(h.closed p hp).1] at hgoes
  cases hgoes

/-- A well-formed trace fails only as the machine does, -/
theorem failsBy_run (h : t.WellFormed) (hsize : f.size = t.registers) (fuel : Nat) (io : Console) :
    (t.run m fuel f io).FailsBy m.MayFail :=
  Trace.failsBy_run h.allBelow hsize (fun _ _ => h.runAll_ne_going _ _ _ _ _)

/-- also without its useless operations. -/
theorem failsBy_run_simplify (h : t.WellFormed) (hsize : f.size = t.registers) (fuel : Nat)
    (io : Console) : (t.simplify.run m fuel f io).FailsBy m.MayFail := by
  rw [run_simplify h.allBelow]
  exact h.failsBy_run hsize fuel io

end WellFormed

end Trace

end HotPath
