/-
  HotPath.Proofs.Trace.Bounds

  The slots that operations mention, and how many slots a run works on.

    * `Op.Below n` says that every slot of an operation, nested ones included,
      is below `n`.
    * A run never changes the number of slots (`Op.size_of_runAll`).
    * `Trace.Progress.andThen` is what a list of operations does after another
      (`Op.runAll_append`).
-/
import HotPath.Trace.Run

namespace HotPath

-- ============================================================================
-- Slots below a bound
-- ============================================================================

/-- The slot of an operand is below a bound. -/
def Operand.Below (n : Nat) (x : Operand) : Prop := ∀ s, x.slot? = some s → s < n

/-- The slot of a binding is below a bound. -/
def Binding.Below (n : Nat) (b : Binding) : Prop := ∀ s, b.slot? = some s → s < n

/-- The slots that leaving reads are below a bound. -/
structure Leave.Below (n : Nat) (l : Leave) : Prop where
  regs : ∀ b ∈ l.regs, b.Below n
  value : ∀ x, l.kind = .returned x → x.Below n

theorem Operand.Below.mono {n k : Nat} (h : n ≤ k) {x : Operand} (hx : x.Below n) : x.Below k :=
  fun s hs => Nat.lt_of_lt_of_le (hx s hs) h

theorem Binding.Below.mono {n k : Nat} (h : n ≤ k) {b : Binding} (hb : b.Below n) : b.Below k :=
  fun s hs => Nat.lt_of_lt_of_le (hb s hs) h

theorem Leave.Below.mono {n k : Nat} (h : n ≤ k) {l : Leave} (hl : l.Below n) : l.Below k :=
  ⟨fun b hb => (hl.regs b hb).mono h, fun x hx => (hl.value x hx).mono h⟩

/-- A binding and the operand that reads it mention the same slot. -/
theorem Binding.Below.operand {n : Nat} {b : Binding} (hb : b.Below n) : b.operand.Below n := by
  intro s hs
  cases b with
  | fixed k => cases hs
  | slot s' t => exact hb s hs

mutual

/-- Every slot that the operation mentions is below a bound. -/
def Op.Below (n : Nat) : Op → Prop
  | .const dst _ => dst < n
  | .copy dst src => dst < n ∧ src < n
  | .binary _ dst lhs rhs => dst < n ∧ lhs.Below n ∧ rhs.Below n
  | .input dst => dst < n
  | .print src => src.Below n
  | .alloc dst fields => dst < n ∧ ∀ x ∈ fields, x.Below n
  | .getField dst obj _ => dst < n ∧ obj.Below n
  | .call dst _ args => dst < n ∧ ∀ x ∈ args, x.Below n
  | .guard cond _ leave => cond.Below n ∧ leave.Below n
  | .branch cond thenOps elseOps => cond.Below n ∧ Op.AllBelow n thenOps ∧ Op.AllBelow n elseOps
  | .exit leave => leave.Below n

/-- Every slot that the operations mention is below a bound. -/
def Op.AllBelow (n : Nat) : List Op → Prop
  | [] => True
  | op :: ops => op.Below n ∧ Op.AllBelow n ops

end

namespace Op

mutual

theorem Below.mono {n k : Nat} (h : n ≤ k) : {op : Op} → op.Below n → op.Below k
  | .const .., hb => Nat.lt_of_lt_of_le hb h
  | .copy .., hb => ⟨Nat.lt_of_lt_of_le hb.1 h, Nat.lt_of_lt_of_le hb.2 h⟩
  | .binary .., hb => ⟨Nat.lt_of_lt_of_le hb.1 h, hb.2.1.mono h, hb.2.2.mono h⟩
  | .input _, hb => Nat.lt_of_lt_of_le hb h
  | .print _, hb => Operand.Below.mono h hb
  | .alloc .., hb => ⟨Nat.lt_of_lt_of_le hb.1 h, fun x hx => (hb.2 x hx).mono h⟩
  | .getField .., hb => ⟨Nat.lt_of_lt_of_le hb.1 h, hb.2.mono h⟩
  | .call .., hb => ⟨Nat.lt_of_lt_of_le hb.1 h, fun x hx => (hb.2 x hx).mono h⟩
  | .guard .., hb => ⟨hb.1.mono h, hb.2.mono h⟩
  | .branch .., hb => ⟨hb.1.mono h, AllBelow.mono h hb.2.1, AllBelow.mono h hb.2.2⟩
  | .exit _, hb => Leave.Below.mono h hb

theorem AllBelow.mono {n k : Nat} (h : n ≤ k) : {ops : List Op} → AllBelow n ops → AllBelow k ops
  | [], _ => trivial
  | _ :: _, hb => ⟨Below.mono h hb.1, AllBelow.mono h hb.2⟩

end

theorem allBelow_append {n : Nat} {xs ys : List Op} :
    AllBelow n (xs ++ ys) ↔ AllBelow n xs ∧ AllBelow n ys := by
  induction xs with
  | nil => exact ⟨fun h => ⟨trivial, h⟩, fun h => h.2⟩
  | cons x xs ih =>
    simp only [List.cons_append, AllBelow, ih, and_assoc]

theorem allBelow_singleton {n : Nat} {op : Op} : AllBelow n [op] ↔ op.Below n :=
  ⟨fun h => h.1, fun h => ⟨h, trivial⟩⟩

end Op

-- ============================================================================
-- Runs in sequence
-- ============================================================================

namespace Trace.Progress

/-- Goes on with more operations, unless the trace was left or failed. -/
def andThen (p : Progress) (next : Array Value → Console → Progress) : Progress :=
  match p with
  | .going slots io => next slots io
  | p => p

/-- The slots of a run that goes on are as many as a number. -/
def HasSize (n : Nat) (p : Progress) : Prop := ∀ slots io, p = .going slots io → slots.size = n

theorem hasSize_going (slots : Array Value) (io : Console) :
    HasSize slots.size (.going slots io) := by
  intro slots' io' h
  cases h
  rfl

theorem hasSize_store (slots : Array Value) (io : Console) (dst : Slot) (v : Value) :
    HasSize slots.size (store slots io dst v) := by
  unfold store
  split
  · intro slots' io' h
    cases h
    exact Array.size_setIfInBounds
  · exact nofun

theorem hasSize_leave (n : Nat) (slots : Array Value) (io : Console) (l : Leave) :
    HasSize n (leave slots io l) := by
  unfold leave
  cases l.exit slots <;> exact nofun

theorem hasSize_withValue {α : Type} {n : Nat} {io : Console} {x : Except Fault α}
    {go : α → Progress} (h : ∀ v, HasSize n (go v)) : HasSize n (withValue io x go) := by
  cases x with
  | error e => exact nofun
  | ok v => exact h v

end Trace.Progress

namespace Op

open Trace Trace.Progress

theorem runAll_cons (call : Machine.Callee) (slots : Array Value) (io : Console) (op : Op)
    (ops : List Op) :
    runAll call slots io (op :: ops) =
      (op.run call slots io).andThen (fun slots io => runAll call slots io ops) := by
  rw [runAll]
  cases op.run call slots io <;> rfl

/-- A list of operations after another. -/
theorem runAll_append (call : Machine.Callee) (slots : Array Value) (io : Console)
    (xs ys : List Op) :
    runAll call slots io (xs ++ ys) =
      (runAll call slots io xs).andThen (fun slots io => runAll call slots io ys) := by
  induction xs generalizing slots io with
  | nil => rfl
  | cons x xs ih =>
    rw [List.cons_append, runAll_cons, runAll_cons]
    cases x.run call slots io with
    | going slots io => exact ih slots io
    | _ => rfl

theorem runAll_singleton (call : Machine.Callee) (slots : Array Value) (io : Console) (op : Op) :
    runAll call slots io [op] = op.run call slots io := by
  rw [runAll_cons]
  cases op.run call slots io <;> rfl

mutual

/-- An operation keeps the number of slots. -/
theorem hasSize_run (call : Machine.Callee) (slots : Array Value) (io : Console) :
    (op : Op) → HasSize slots.size (op.run call slots io)
  | .const .. => hasSize_store _ _ _ _
  | .copy .. => hasSize_withValue (fun _ => hasSize_store _ _ _ _)
  | .binary .. =>
    hasSize_withValue (fun _ => hasSize_withValue (fun _ => hasSize_withValue (fun _ =>
      hasSize_store _ _ _ _)))
  | .input _ => hasSize_store _ _ _ _
  | .print _ => hasSize_withValue (fun _ => hasSize_going _ _)
  | .alloc .. => hasSize_withValue (fun _ => hasSize_store _ _ _ _)
  | .getField .. => hasSize_withValue (fun _ => hasSize_withValue (fun _ => hasSize_store _ _ _ _))
  | .call _ func _ => by
    rw [run]
    refine hasSize_withValue (fun vs => ?_)
    cases call func vs io with
    | done v io => exact hasSize_store _ _ _ _
    | failed e io => exact nofun
    | starved => exact nofun
  | .guard cond expect l => by
    rw [run]
    refine hasSize_withValue (fun v => ?_)
    split
    · exact hasSize_going _ _
    · exact hasSize_leave _ _ _ _
  | .branch cond thenOps elseOps => by
    rw [run]
    refine hasSize_withValue (fun v => ?_)
    split
    · exact hasSize_runAll call slots io thenOps
    · exact hasSize_runAll call slots io elseOps
  | .exit _ => hasSize_leave _ _ _ _

/-- Operations keep the number of slots. -/
theorem hasSize_runAll (call : Machine.Callee) (slots : Array Value) (io : Console) :
    (ops : List Op) → HasSize slots.size (runAll call slots io ops)
  | [] => hasSize_going _ _
  | op :: ops => by
    rw [runAll_cons]
    have hop := hasSize_run call slots io op
    cases h : op.run call slots io with
    | going slots' io' =>
      rw [← hop slots' io' h]
      exact hasSize_runAll call slots' io' ops
    | left e io' => exact nofun
    | failed e io' => exact nofun
    | starved => exact nofun

end

end Op

/-- A trace works on its slots, or on its registers if they are more. -/
theorem Trace.size_entrySlots {t : Trace} {f : Frame} (h : f.size = t.registers) :
    (t.entrySlots f).size = max t.slots t.registers := by
  have hlen : f.cells.length = t.registers := h
  simp only [entrySlots, Frame.values, List.size_toArray, List.length_append, List.length_map,
    List.length_replicate]
  omega

end HotPath
