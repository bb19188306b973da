/-
  HotPath.Proofs.Trace.Simplify

  Dropping useless operations changes no run. Two runs that hold the same values
  in all slots that are read anywhere stay so (`Op.alike_runAll_pruneAll`), because a
  dropped operation only fills a slot that nothing reads or copies a slot to
  itself. Sweeping is repeated, and still the run ends alike
  (`Op.ending_runAll_settle`). A sweep that drops nothing finds every constant and
  every copy useful, so as many sweeps as there are operations are enough
  (`Op.allUseful_settle`). Both together are `Trace.simplify_keeps_every_run`.
-/
import HotPath.Proofs.Trace.Bounds
import HotPath.Trace.Simplify

namespace HotPath

open Trace Trace.Progress

-- ============================================================================
-- Slots that agree where it matters
-- ============================================================================

/-- Two arrays of slots hold the same values where it matters. -/
structure AgreeOn (used : List Slot) (slots slots' : Array Value) : Prop where
  size_eq : slots.size = slots'.size
  get_eq : ∀ s ∈ used, slots[s]? = slots'[s]?

namespace AgreeOn

variable {used : List Slot} {slots slots' : Array Value}

theorem eval_eq (h : AgreeOn used slots slots') {x : Operand} (hx : x.slot?.toList ⊆ used) :
    x.eval slots = x.eval slots' := by
  cases x with
  | const v => rfl
  | slot s => simp only [Operand.eval, h.get_eq s (hx (List.mem_singleton.mpr rfl))]

theorem evalAll_eq (h : AgreeOn used slots slots') {xs : List Operand}
    (hx : xs.filterMap Operand.slot? ⊆ used) :
    Operand.evalAll slots xs = Operand.evalAll slots' xs := by
  induction xs with
  | nil => rfl
  | cons x xs ih =>
    have hhead : x.slot?.toList ⊆ used := by
      intro s hs
      exact hx (List.mem_filterMap.mpr ⟨x, List.mem_cons_self, Option.mem_toList.mp hs⟩)
    have htail : xs.filterMap Operand.slot? ⊆ used := by
      intro s hs
      obtain ⟨y, hy, hys⟩ := List.mem_filterMap.mp hs
      exact hx (List.mem_filterMap.mpr ⟨y, List.mem_cons_of_mem _ hy, hys⟩)
    simp only [Operand.evalAll, h.eval_eq hhead, ih htail]

theorem fill_eq (h : AgreeOn used slots slots') {bs : List Binding}
    (hb : bs.filterMap Binding.slot? ⊆ used) (i : Nat) (f : Frame) :
    Leave.fill slots i f bs = Leave.fill slots' i f bs := by
  induction bs generalizing i f with
  | nil => rfl
  | cons b bs ih =>
    have hhead : b.operand.slot?.toList ⊆ used := by
      intro s hs
      refine hb (List.mem_filterMap.mpr ⟨b, List.mem_cons_self, ?_⟩)
      cases b with
      | fixed k => cases hs
      | slot s' t => exact Option.mem_toList.mp hs
    have htail : bs.filterMap Binding.slot? ⊆ used := by
      intro s hs
      obtain ⟨y, hy, hys⟩ := List.mem_filterMap.mp hs
      exact hb (List.mem_filterMap.mpr ⟨y, List.mem_cons_of_mem _ hy, hys⟩)
    simp only [Leave.fill, h.eval_eq hhead]
    cases b.operand.eval slots' with
    | error e => rfl
    | ok v => exact ih htail _ _

theorem exit_eq (h : AgreeOn used slots slots') {l : Leave} (hl : l.uses ⊆ used) :
    l.exit slots = l.exit slots' := by
  have hregs : l.regs.filterMap Binding.slot? ⊆ used :=
    fun s hs => hl (List.mem_append_right _ hs)
  have hkind : l.exitKind slots = l.exitKind slots' := by
    cases hk : l.kind with
    | returned x =>
      have hx : x.slot?.toList ⊆ used := by
        intro s hs
        refine hl (List.mem_append_left _ ?_)
        rw [hk]
        exact hs
      simp only [Leave.exitKind, hk, h.eval_eq hx]
    | mergePoint => simp only [Leave.exitKind, hk]
    | promotion reg => simp only [Leave.exitKind, hk]
    | fallback => simp only [Leave.exitKind, hk]
  simp only [Leave.exit, h.fill_eq hregs, hkind]

theorem set (h : AgreeOn used slots slots') (dst : Slot) (v : Value) :
    AgreeOn used (slots.setIfInBounds dst v) (slots'.setIfInBounds dst v) := by
  refine ⟨by simp [h.size_eq], fun s hs => ?_⟩
  rw [Array.getElem?_setIfInBounds, Array.getElem?_setIfInBounds, h.size_eq, h.get_eq s hs]

/-- A slot that does not matter may be filled on one side only. -/
theorem set_left (h : AgreeOn used slots slots') {dst : Slot} (hd : dst ∉ used) (v : Value) :
    AgreeOn used (slots.setIfInBounds dst v) slots' := by
  refine ⟨by simp [h.size_eq], fun s hs => ?_⟩
  have hne : dst ≠ s := fun he => hd (he ▸ hs)
  rw [Array.getElem?_setIfInBounds, if_neg hne, h.get_eq s hs]

end AgreeOn

-- ============================================================================
-- Runs that agree where it matters
-- ============================================================================

/-- Two runs end alike, or go on with slots that agree where it matters. -/
inductive Trace.Progress.Alike (used : List Slot) : Progress → Progress → Prop where
  | going {slots slots' : Array Value} (h : AgreeOn used slots slots') (io : Console) :
    Alike used (.going slots io) (.going slots' io)
  | left (e : Exit) (io : Console) : Alike used (.left e io) (.left e io)
  | failed (e : Fault) (io : Console) : Alike used (.failed e io) (.failed e io)
  | starved : Alike used .starved .starved

namespace Trace.Progress

variable {used : List Slot} {slots slots' : Array Value}

theorem Alike.andThen {p q : Progress} {next next' : Array Value → Console → Progress}
    (h : Alike used p q)
    (hn : ∀ slots slots' io, p = .going slots io → AgreeOn used slots slots' →
      Alike used (next slots io) (next' slots' io)) :
    Alike used (p.andThen next) (q.andThen next') := by
  cases h with
  | going ha io => exact hn _ _ io rfl ha
  | left e io => exact .left e io
  | failed e io => exact .failed e io
  | starved => exact .starved

theorem Alike.withValue {α : Type} {io : Console} {x y : Except Fault α} {go go' : α → Progress}
    (hx : x = y) (h : ∀ v, Alike used (go v) (go' v)) :
    Alike used (withValue io x go) (withValue io y go') := by
  subst hx
  cases x with
  | error e => exact .failed e io
  | ok v => exact h v

theorem alike_store (h : AgreeOn used slots slots') (io : Console) (dst : Slot) (v : Value) :
    Alike used (store slots io dst v) (store slots' io dst v) := by
  unfold store
  rw [← h.size_eq]
  split
  · exact .going (h.set dst v) io
  · exact .failed _ io

theorem alike_leave (h : AgreeOn used slots slots') (io : Console) {l : Leave}
    (hl : l.uses ⊆ used) : Alike used (leave slots io l) (leave slots' io l) := by
  unfold leave
  rw [← h.exit_eq hl]
  cases l.exit slots with
  | ok e => exact .left e io
  | error e => exact .failed e io

end Trace.Progress

-- ============================================================================
-- One sweep
-- ============================================================================

namespace Op

variable {used : List Slot}

/-- An operation that is not worth keeping leaves the slots that matter alone. -/
theorem alike_run_of_not_isKept (call : Machine.Callee) {slots slots' : Array Value} (io : Console)
    {op : Op} (hb : op.Below slots.size) (ha : AgreeOn used slots slots')
    (hk : op.isKept used = false) : Alike used (op.run call slots io) (.going slots' io) := by
  cases op with
  | const dst v =>
    have hd : dst ∉ used := by simpa [isKept] using hk
    rw [run, store, if_pos (show dst < slots.size from hb)]
    exact .going (ha.set_left hd v) io
  | copy dst src =>
    obtain ⟨hdst, hsrc⟩ := hb
    rw [run, Array.getElem?_eq_getElem hsrc]
    simp only [inRange, withValue, store, if_pos hdst]
    by_cases he : dst = src
    · subst he
      -- a copy of a slot to itself changes nothing
      have hsame : slots.setIfInBounds dst slots[dst] = slots := by
        apply Array.ext
        · exact Array.size_setIfInBounds
        · intro i h₁ h₂
          rw [Array.getElem_setIfInBounds h₂]
          split
          · next h => subst h; rfl
          · rfl
      rw [hsame]
      exact .going ha io
    · have hd : dst ∉ used := by simpa [isKept, he] using hk
      exact .going (ha.set_left hd _) io
  | _ => cases hk

mutual

/-- Useless operations inside of an operation do not matter. -/
theorem alike_run_prune (call : Machine.Callee) {slots slots' : Array Value} (io : Console)
    (ha : AgreeOn used slots slots') : (op : Op) → op.Below slots.size → op.isKept used = true →
      op.uses ⊆ used → Alike used (op.run call slots io) ((op.prune used).run call slots' io)
  | .const dst v, _, _, _ => by
    simp only [prune, run]
    exact alike_store ha io dst v
  | .copy dst src, _, hk, hu => by
    have hne : dst ≠ src := by
      have := (Bool.and_eq_true _ _ ▸ hk : _ ∧ _).1
      simpa using this
    have hsrc : src ∈ used := by
      rw [uses, if_neg hne] at hu
      exact hu (List.mem_singleton.mpr rfl)
    simp only [prune, run, ha.get_eq src hsrc]
    exact Alike.withValue rfl (fun v => alike_store ha io dst v)
  | .binary op dst lhs rhs, _, _, hu => by
    rw [uses] at hu
    simp only [prune, run]
    refine Alike.withValue (ha.eval_eq (fun s hs => hu (List.mem_append_left _ hs))) (fun a => ?_)
    refine Alike.withValue (ha.eval_eq (fun s hs => hu (List.mem_append_right _ hs))) (fun b => ?_)
    exact Alike.withValue rfl (fun v => alike_store ha io dst v)
  | .input dst, _, _, _ => by
    simp only [prune, run]
    exact alike_store ha _ dst _
  | .print src, _, _, hu => by
    rw [uses] at hu
    simp only [prune, run]
    exact Alike.withValue (ha.eval_eq hu) (fun v => .going ha _)
  | .alloc dst fields, _, _, hu => by
    rw [uses] at hu
    simp only [prune, run]
    exact Alike.withValue (ha.evalAll_eq hu) (fun vs => alike_store ha io dst _)
  | .getField dst obj index, _, _, hu => by
    rw [uses] at hu
    simp only [prune, run]
    refine Alike.withValue (ha.eval_eq hu) (fun v => ?_)
    exact Alike.withValue rfl (fun v => alike_store ha io dst v)
  | .call dst func args, _, _, hu => by
    rw [uses] at hu
    simp only [prune, run]
    refine Alike.withValue (ha.evalAll_eq hu) (fun vs => ?_)
    cases call func vs io with
    | done v io => exact alike_store ha io dst v
    | failed e io => exact .failed e io
    | starved => exact .starved
  | .guard cond expect l, _, _, hu => by
    rw [uses] at hu
    simp only [prune, run]
    refine Alike.withValue (ha.eval_eq (fun s hs => hu (List.mem_append_left _ hs))) (fun v => ?_)
    split
    · exact .going ha io
    · exact alike_leave ha io (fun s hs => hu (List.mem_append_right _ hs))
  | .branch cond thenOps elseOps, hb, _, hu => by
    rw [uses] at hu
    simp only [prune, run]
    obtain ⟨-, ht, he⟩ := hb
    refine Alike.withValue (ha.eval_eq (fun s hs =>
      hu (List.mem_append_left _ (List.mem_append_left _ hs)))) (fun v => ?_)
    split
    · exact alike_runAll_pruneAll call io ha thenOps ht
        (fun s hs => hu (List.mem_append_left _ (List.mem_append_right _ hs)))
    · exact alike_runAll_pruneAll call io ha elseOps he
        (fun s hs => hu (List.mem_append_right _ hs))
  | .exit l, _, _, hu => by
    rw [uses] at hu
    simp only [prune, run]
    exact alike_leave ha io hu

/-- Useless operations of a list do not matter. -/
theorem alike_runAll_pruneAll (call : Machine.Callee) {slots slots' : Array Value} (io : Console)
    (ha : AgreeOn used slots slots') : (ops : List Op) → AllBelow slots.size ops →
      usesAll ops ⊆ used → Alike used (runAll call slots io ops)
        (runAll call slots' io (pruneAll used ops))
  | [], _, _ => .going ha io
  | op :: ops, hb, hu => by
    rw [usesAll] at hu
    have hop : op.uses ⊆ used := fun s hs => hu (List.mem_append_left _ hs)
    have hops : usesAll ops ⊆ used := fun s hs => hu (List.mem_append_right _ hs)
    have hrest : ∀ slots₁ slots₂ io', op.run call slots io = .going slots₁ io' →
        AgreeOn used slots₁ slots₂ →
        Alike used (runAll call slots₁ io' ops) (runAll call slots₂ io' (pruneAll used ops)) := by
      intro slots₁ slots₂ io' hr ha'
      have hsize := hasSize_run call slots io op slots₁ io' hr
      exact alike_runAll_pruneAll call io' ha' ops (by rw [hsize]; exact hb.2) hops
    rw [pruneAll, runAll_cons]
    cases hk : op.isKept used with
    | true =>
      rw [if_pos rfl, runAll_cons]
      exact (alike_run_prune call io ha op hb.1 hk hop).andThen hrest
    | false =>
      rw [if_neg Bool.false_ne_true]
      have h := (alike_run_of_not_isKept call io hb.1 ha hk).andThen hrest
      exact h

end

-- ============================================================================
-- Sweeping until nothing goes
-- ============================================================================

mutual

theorem Below.prune {n : Nat} : (op : Op) → op.Below n → (op.prune used).Below n
  | .branch cond thenOps elseOps, hb => by
    rw [Op.prune]
    exact ⟨hb.1, AllBelow.pruneAll thenOps hb.2.1, AllBelow.pruneAll elseOps hb.2.2⟩
  | .const .., hb | .copy .., hb | .binary .., hb | .input _, hb | .print _, hb | .alloc .., hb
  | .getField .., hb | .call .., hb | .guard .., hb | .exit _, hb => by
    rw [Op.prune]
    · exact hb
    · exact nofun

theorem AllBelow.pruneAll {n : Nat} : (ops : List Op) → AllBelow n ops →
    AllBelow n (Op.pruneAll used ops)
  | [], hb => hb
  | op :: ops, hb => by
    rw [Op.pruneAll]
    split
    · exact ⟨Below.prune op hb.1, AllBelow.pruneAll ops hb.2⟩
    · exact AllBelow.pruneAll ops hb.2

end

theorem AllBelow.settle {n : Nat} (k : Nat) {ops : List Op} (hb : AllBelow n ops) :
    AllBelow n (Op.settle k ops) := by
  induction k generalizing ops with
  | zero => exact hb
  | succ k ih =>
    have hswept : AllBelow n (sweep ops) := AllBelow.pruneAll ops hb
    rw [Op.settle]
    split
    · exact hswept
    · exact ih hswept

/-- What a run comes to, when slots no longer matter. -/
def ending (p : Progress) : Progress := p.andThen (fun _ io => .going #[] io)

theorem Alike.ending_eq {p q : Progress} (h : Alike used p q) : ending p = ending q := by
  cases h <;> rfl

theorem ending_runAll_sweep (call : Machine.Callee) (slots : Array Value) (io : Console)
    {ops : List Op} (hb : AllBelow slots.size ops) :
    ending (runAll call slots io (sweep ops)) = ending (runAll call slots io ops) := by
  have ha : AgreeOn (usesAll ops) slots slots := ⟨rfl, fun _ _ => rfl⟩
  exact (Alike.ending_eq (alike_runAll_pruneAll call io ha ops hb (fun _ hs => hs))).symm

theorem ending_runAll_settle (call : Machine.Callee) (slots : Array Value) (io : Console) (n : Nat)
    {ops : List Op} (hb : AllBelow slots.size ops) :
    ending (runAll call slots io (settle n ops)) = ending (runAll call slots io ops) := by
  induction n generalizing ops with
  | zero => rfl
  | succ n ih =>
    have hswept : AllBelow slots.size (sweep ops) := AllBelow.pruneAll ops hb
    rw [settle]
    split
    · exact ending_runAll_sweep call slots io hb
    · rw [ih hswept]
      exact ending_runAll_sweep call slots io hb

-- ============================================================================
-- What is left is useful
-- ============================================================================

mutual

/-- Every constant and every copy inside of the operation fills one of the slots
`used`, and no copy is of a slot to itself. -/
def IsUseful (used : List Slot) : Op → Prop
  | .const dst _ => dst ∈ used
  | .copy dst src => dst ≠ src ∧ dst ∈ used
  | .branch _ thenOps elseOps => AllUseful used thenOps ∧ AllUseful used elseOps
  | _ => True

/-- So it is with every one of the operations. -/
def AllUseful (used : List Slot) : List Op → Prop
  | [] => True
  | op :: ops => op.IsUseful used ∧ AllUseful used ops

end

theorem count_pos (op : Op) : 0 < op.count := by
  cases op with
  | branch cond thenOps elseOps => simp only [count]; omega
  | _ => exact Nat.one_pos

mutual

theorem count_prune_le : (op : Op) → (op.prune used).count ≤ op.count
  | .branch cond thenOps elseOps => by
    have hthen := countAll_pruneAll_le thenOps
    have helse := countAll_pruneAll_le elseOps
    simp only [prune, count]
    omega
  | .const .. | .copy .. | .binary .. | .input _ | .print _ | .alloc .. | .getField ..
  | .call .. | .guard .. | .exit _ => Nat.le_refl _

theorem countAll_pruneAll_le : (ops : List Op) → countAll (pruneAll used ops) ≤ countAll ops
  | [] => Nat.le_refl _
  | op :: ops => by
    have hop := count_prune_le op
    have hops := countAll_pruneAll_le ops
    rw [pruneAll]
    split <;> simp only [countAll] <;> omega

end

mutual

/-- An operation that is kept and has nothing dropped inside is useful. -/
theorem isUseful_of_count_eq : (op : Op) → op.isKept used = true →
    (op.prune used).count = op.count → op.IsUseful used ∧ op.prune used = op
  | .const dst v, hk, _ => by
    have hdst : dst ∈ used := by simpa [isKept] using hk
    exact ⟨hdst, rfl⟩
  | .copy dst src, hk, _ => by
    have hboth : dst ≠ src ∧ dst ∈ used := by simpa [isKept] using hk
    exact ⟨hboth, rfl⟩
  | .branch cond thenOps elseOps, _, h => by
    have hthen : countAll (pruneAll used thenOps) ≤ countAll thenOps := countAll_pruneAll_le _
    have helse : countAll (pruneAll used elseOps) ≤ countAll elseOps := countAll_pruneAll_le _
    simp only [prune, count] at h
    obtain ⟨ht, hteq⟩ := allUseful_of_countAll_eq thenOps (by omega)
    obtain ⟨he, heeq⟩ := allUseful_of_countAll_eq elseOps (by omega)
    exact ⟨⟨ht, he⟩, by simp only [prune, hteq, heeq]⟩
  | .binary .., _, _ | .input _, _, _ | .print _, _, _ | .alloc .., _, _ | .getField .., _, _
  | .call .., _, _ | .guard .., _, _ | .exit _, _, _ => ⟨trivial, rfl⟩

/-- Pruning that drops nothing leaves a list of useful operations as it is. -/
theorem allUseful_of_countAll_eq : (ops : List Op) →
    countAll (pruneAll used ops) = countAll ops → AllUseful used ops ∧ pruneAll used ops = ops
  | [], _ => ⟨trivial, rfl⟩
  | op :: ops, h => by
    have hop : (op.prune used).count ≤ op.count := count_prune_le op
    have hops : countAll (pruneAll used ops) ≤ countAll ops := countAll_pruneAll_le ops
    have hpos : 0 < op.count := count_pos op
    rw [pruneAll] at h
    cases hk : op.isKept used with
    | true =>
      simp only [hk, if_true, countAll] at h
      obtain ⟨hu, heq⟩ := isUseful_of_count_eq op hk (by omega)
      obtain ⟨hus, heqs⟩ := allUseful_of_countAll_eq ops (by omega)
      exact ⟨⟨hu, hus⟩, by rw [pruneAll, if_pos hk, heq, heqs]⟩
    | false =>
      -- a dropped operation would be missing from the count
      simp only [hk, Bool.false_eq_true, if_false, countAll] at h
      omega

end

/-- More sweeps than there are operations leave none that is useless: each one
but the last drops an operation. -/
theorem allUseful_settle {n : Nat} {ops : List Op} (hn : countAll ops < n) :
    AllUseful (usesAll (settle n ops)) (settle n ops) := by
  induction n generalizing ops with
  | zero => omega
  | succ n ih =>
    have hle : countAll (sweep ops) ≤ countAll ops := countAll_pruneAll_le ops
    rw [settle]
    split
    · next heq =>
      obtain ⟨huseful, hsame⟩ := allUseful_of_countAll_eq ops heq
      rw [show sweep ops = ops from hsame]
      exact huseful
    · next hne => exact ih (by omega)

end Op

-- ============================================================================
-- Whole traces
-- ============================================================================

namespace Trace

@[simp] theorem simplify_registers (t : Trace) : t.simplify.registers = t.registers := rfl

@[simp] theorem simplify_entry (t : Trace) : t.simplify.entry = t.entry := rfl

/-- A trace without its useless operations runs as the trace does. -/
theorem run_simplify {t : Trace} (hb : Op.AllBelow (max t.slots t.registers) t.ops) (m : Machine)
    (fuel : Nat) (f : Frame) (io : Console) : t.simplify.run m fuel f io = t.run m fuel f io := by
  unfold run
  rw [simplify_registers, simplify_entry]
  by_cases hsize : f.size = t.registers
  · have hend : Op.ending (Op.runAll (m.call fuel 1) (t.simplify.entrySlots f) io t.simplify.ops) =
        Op.ending (Op.runAll (m.call fuel 1) (t.entrySlots f) io t.ops) :=
      Op.ending_runAll_settle _ _ io _ (size_entrySlots hsize ▸ hb)
    rw [if_pos hsize, if_pos hsize]
    -- a run that goes on to the end fails, whatever its slots hold by then
    revert hend
    cases Op.runAll (m.call fuel 1) (t.simplify.entrySlots f) io t.simplify.ops <;>
      cases Op.runAll (m.call fuel 1) (t.entrySlots f) io t.ops <;>
      intro hend <;> cases hend <;> rfl
  · rw [if_neg hsize, if_neg hsize]

/-- Simplifying keeps every run of a trace, whatever its operations are: how it
is left, its fault or running past its last operation, and what was read and
written. Of constants and copies it leaves only those that fill a slot which
some operation reads. -/
theorem simplify_keeps_every_run {t : Trace}
    (hb : Op.AllBelow (max t.slots t.registers) t.ops) :
    (∀ m fuel f io, t.simplify.run m fuel f io = t.run m fuel f io) ∧
      Op.AllUseful (Op.usesAll t.simplify.ops) t.simplify.ops :=
  ⟨run_simplify hb, Op.allUseful_settle (Nat.lt_succ_self _)⟩

/-- Slot 4 is filled in one arm for a copy that nothing reads, slot 2 in both
arms and again after them. -/
def tangled : Trace where
  entry := ⟨0, 1⟩
  ops := [
    .const 2 (.int 7),
    .branch (.slot 0)
      [.const 4 (.int 1), .copy 3 4, .copy 2 1,
        .guard (.slot 2) true ⟨⟨0, 5⟩, .fallback, [.slot 0 false, .slot 2 true]⟩]
      [.copy 2 2, .branch (.slot 1) [.copy 2 0] []],
    .print (.slot 2),
    .const 2 .nil]
  slots := 5
  registers := 2

/-- Two sweeps drop the copy and then what it read; the constant at the end is
kept, because slot 2 is read before. -/
theorem simplify_keeps_every_run_tangled :
    Op.AllBelow (max tangled.slots tangled.registers) tangled.ops ∧
      tangled.opCount = 11 ∧ tangled.simplify.opCount = 8 ∧
      (∀ m fuel f io, tangled.simplify.run m fuel f io = tangled.run m fuel f io) ∧
      Op.AllUseful (Op.usesAll tangled.simplify.ops) tangled.simplify.ops := by
  have hleave : Leave.Below 5 ⟨⟨0, 5⟩, .fallback, [.slot 0 false, .slot 2 true]⟩ :=
    ⟨by simp [Binding.Below, Binding.slot?], fun x hx => by cases hx⟩
  have hb : Op.AllBelow (max tangled.slots tangled.registers) tangled.ops := by
    simp [tangled, Op.AllBelow, Op.Below, Operand.Below, Operand.slot?, hleave]
  exact ⟨hb, by decide, by decide, simplify_keeps_every_run hb⟩

end Trace

end HotPath
