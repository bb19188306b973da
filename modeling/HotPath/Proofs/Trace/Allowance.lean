/-
  HotPath.Proofs.Trace.Allowance

  Runs of a trace depend on allowances only through the calls they make. A run
  that answered under an allowance for calls keeps its answer when calls may
  take as long as they need (`Op.runAll_below`), and from some allowance on the
  two are the same (`Op.exists_runAll_eq`).
-/
import HotPath.Proofs.Machine.Allowance
import HotPath.Proofs.Trace.Bounds

namespace HotPath

namespace Trace.Progress

/-- One run is the other, unless an allowance ran out. -/
def Below (p q : Progress) : Prop := p = .starved ∨ p = q

theorem Below.refl (p : Progress) : p.Below p := Or.inr rfl

theorem Below.andThen {p q : Progress} {next next' : Array Value → Console → Progress}
    (h : p.Below q) (hn : ∀ slots io, (next slots io).Below (next' slots io)) :
    (p.andThen next).Below (q.andThen next') := by
  rcases h with h | h
  · rw [h]
    exact Or.inl rfl
  · rw [h]
    cases q with
    | going slots io => exact hn slots io
    | left e io => exact Below.refl _
    | failed e io => exact Below.refl _
    | starved => exact Below.refl _

theorem Below.withValue {α : Type} {io : Console} {x : Except Fault α} {go go' : α → Progress}
    (h : ∀ v, (go v).Below (go' v)) : (withValue io x go).Below (withValue io x go') := by
  cases x with
  | error e => exact Below.refl _
  | ok v => exact h v

end Trace.Progress

namespace Op

open Trace Trace.Progress

mutual

theorem run_below {c d : Machine.Callee} (h : c.Below d) (slots : Array Value) (io : Console) :
    (op : Op) → (op.run c slots io).Below (op.run d slots io)
  | .call dst func args => by
    rw [run, run]
    refine Below.withValue (fun vs => ?_)
    rcases h func vs io with hc | hc
    · rw [hc]
      exact Or.inl rfl
    · rw [hc]
      exact Below.refl _
  | .branch cond thenOps elseOps => by
    rw [run, run]
    refine Below.withValue (fun v => ?_)
    split
    · exact runAll_below h slots io thenOps
    · exact runAll_below h slots io elseOps
  | .const .. | .copy .. | .binary .. | .input _ | .print _ | .alloc .. | .getField ..
  | .guard .. | .exit _ => by
    rw [run, run]
    exact Below.refl _

theorem runAll_below {c d : Machine.Callee} (h : c.Below d) (slots : Array Value) (io : Console) :
    (ops : List Op) → (runAll c slots io ops).Below (runAll d slots io ops)
  | [] => Below.refl _
  | op :: ops => by
    rw [runAll_cons, runAll_cons]
    exact (run_below h slots io op).andThen (fun slots io => runAll_below h slots io ops)

end

mutual

theorem exists_run_eq (m : Machine) (slots : Array Value) (io : Console) :
    (op : Op) → ∃ n, ∀ k, n ≤ k → op.run (m.call k 1) slots io = op.run m.callee slots io
  | .call dst func args => by
    cases ha : Operand.evalAll slots args with
    | error e =>
      refine ⟨0, fun k _ => ?_⟩
      rw [run, run, ha]
      rfl
    | ok vs =>
      obtain ⟨n, hn⟩ := Outcome.exists_eq_eventual (m.call_chain 1 func vs io)
      refine ⟨n, fun k hk => ?_⟩
      have hc : m.call k 1 func vs io = m.callee func vs io := hn k hk
      rw [run, run, ha]
      simp only [withValue, hc]
  | .branch cond thenOps elseOps => by
    obtain ⟨n₁, h₁⟩ := exists_runAll_eq m slots io thenOps
    obtain ⟨n₂, h₂⟩ := exists_runAll_eq m slots io elseOps
    refine ⟨max n₁ n₂, fun k hk => ?_⟩
    rw [run, run, h₁ k (by omega), h₂ k (by omega)]
  | .const .. | .copy .. | .binary .. | .input _ | .print _ | .alloc .. | .getField ..
  | .guard .. | .exit _ => by
    refine ⟨0, fun k _ => ?_⟩
    rw [run, run]

/-- From some allowance for calls on, operations do what they do eventually. -/
theorem exists_runAll_eq (m : Machine) (slots : Array Value) (io : Console) :
    (ops : List Op) →
      ∃ n, ∀ k, n ≤ k → runAll (m.call k 1) slots io ops = runAll m.callee slots io ops
  | [] => ⟨0, fun _ _ => rfl⟩
  | op :: ops => by
    obtain ⟨n₁, h₁⟩ := exists_run_eq m slots io op
    cases hr : op.run m.callee slots io with
    | going slots' io' =>
      obtain ⟨n₂, h₂⟩ := exists_runAll_eq m slots' io' ops
      refine ⟨max n₁ n₂, fun k hk => ?_⟩
      rw [runAll_cons, runAll_cons, h₁ k (by omega), hr]
      exact h₂ k (by omega)
    | left e io' =>
      refine ⟨n₁, fun k hk => ?_⟩
      rw [runAll_cons, runAll_cons, h₁ k hk, hr]
      rfl
    | failed e io' =>
      refine ⟨n₁, fun k hk => ?_⟩
      rw [runAll_cons, runAll_cons, h₁ k hk, hr]
      rfl
    | starved =>
      refine ⟨n₁, fun k hk => ?_⟩
      rw [runAll_cons, runAll_cons, h₁ k hk, hr]
      rfl

end

end Op

end HotPath
