/-
  HotPath.Proofs.Engine.Equivalence

  Specialization cannot be observed. As its allowance grows, a run of a whole
  program attains what the interpreter gives for it, whatever was specialized on
  the way (`Engine.runProgram_attains`). That outcome does not depend on whether
  the policy asks for specialization, so a run with it and a run without it end
  alike (`Trial.same_without_specialization`).
-/
import HotPath.Engine.Trial
import HotPath.Proofs.Engine.Drive
import HotPath.Proofs.Machine.Stack

namespace HotPath

-- ============================================================================
-- Outcomes
-- ============================================================================

namespace Outcome

variable {σ α : Type}

/-- What holds of the desk that a run leaves holds of it after a whole program. -/
theorem Meets.returned {x : Outcome σ Exit} {P : σ → Prop}
    (h : x.Meets (fun _ => P) (fun _ _ => True) True) :
    x.returned.Meets (fun _ => P) (fun _ _ => True) True := by
  cases x with
  | done e s =>
    simp only [Outcome.returned]
    cases e.result with
    | ok v => exact h
    | error x => trivial
  | failed e s => trivial
  | starved => trivial

theorem Attains.returned {x : Nat → Outcome σ Exit} {o : Outcome σ Exit} (h : Attains x o) :
    Attains (fun n => (x n).returned) o.returned := by
  refine ⟨fun n => ?_, fun ho => ?_⟩
  · rcases h.1 n with hn | hn
    · exact Or.inl (returned_eq_starved.mpr hn)
    · exact Or.inr (congrArg Outcome.returned hn)
  · obtain ⟨n, hn⟩ := h.2 (fun hs => ho (returned_eq_starved.mpr hs))
    exact ⟨n, fun hs => hn (returned_eq_starved.mp hs)⟩

end Outcome

-- ============================================================================
-- Whole programs
-- ============================================================================

/-- Where a program starts. -/
def Program.start (p : Program) (io : Console) : Spot := ⟨⟨p.entry, 0⟩, p.entryFrame, io⟩

theorem Program.isFor_start (p : Program) (io : Console) :
    (p.start io).frame.IsFor p (p.start io).loc := by
  obtain ⟨fn, hfn⟩ := p.exists_entry
  refine ⟨fn, hfn, ?_⟩
  show p.entryFrame.size = fn.registers
  have hlimit : min fn.registers Reg.limit = fn.registers :=
    Nat.min_eq_left (registers_le_limit hfn)
  simp only [entryFrame, hfn, Frame.blank, hlimit, Frame.size, List.length_replicate]

/-- What interpreting a whole program comes to. -/
noncomputable def Machine.whole (m : Machine) (io : Console) : Outcome Console Value :=
  (m.final (fun _ => false) (m.program.start io)).returned

namespace Engine

variable {p : Program} {pol : Policy} {allowed : Bool → Prop} {d : Desk}

theorem runProgram_eq (hd : d.engine.program = p) (n : Nat) :
    runProgram n d = (drive n false n (.interpret ⟨p.entry, 0⟩ p.entryFrame) d).returned := by
  unfold runProgram run
  rw [Work.desk_bind, hd, Work.bind_apply]
  cases drive n false n (.interpret ⟨p.entry, 0⟩ p.entryFrame) d with
  | starved => rfl
  | failed e d' => rfl
  | done e d' =>
    simp only [Outcome.returned, Exit.result]
    cases e.value? with
    | none => rfl
    | some v => rfl

/-- A desk at which a program can be run. -/
theorem running_start (hd : d.Sane p pol allowed) :
    Running p pol allowed false d (.interpret ⟨p.entry, 0⟩ p.entryFrame) (p.start d.io) where
  sane := hd
  ready := by cases d.engine.phase <;> rfl
  stands := .resumes (.interpret _ _)
  isFor := p.isFor_start d.io
  io_eq := rfl

/-- As its allowance grows, a run of a whole program attains what interpreting it
comes to, unless the heat grows too large. -/
theorem runProgram_attains (hreg : Regime pol allowed false) (hd : d.Sane p pol allowed)
    (hcool : ∀ n e d', runProgram n d = .failed e d' → ¬ d'.Overheated pol) :
    Outcome.Attains (fun n => (runProgram n d).mapState Desk.io) ((pol.machine p).whole d.io) := by
  have hdrive := drive_attains hreg (running_start hd) (fun n e d' hn => by
    refine hcool n e d' ?_
    rw [runProgram_eq hd.program_eq, hn]
    rfl)
  have hreturned := hdrive.returned
  simp only [← Outcome.mapState_returned, ← runProgram_eq hd.program_eq] at hreturned
  exact hreturned

/-- A new engine, which may or may not drop useless operations of its units. -/
def IsNew (e : Engine) (p : Program) (pol : Policy) : Prop :=
  ∃ e₁ simplifies, ofPolicy p pol = .ok e₁ ∧ e = { e₁ with simplifies }

theorem ofPolicy_eq_ok {e : Engine} (h : ofPolicy p pol = .ok e) :
    e.program = p ∧ e.policy = pol ∧ e.capabilities = .all ∧ e.phase = .interpreting := by
  unfold ofPolicy at h
  split at h
  · cases h
    exact ⟨rfl, rfl, rfl, rfl⟩
  · cases h

/-- The new engine for a policy that can be used. -/
def ofValid (p : Program) (pol : Policy) (h : pol.validate = .ok ()) : Engine :=
  match hnew : ofPolicy p pol with
  | .ok e => e
  | .error _ => False.elim (by rw [ofPolicy, h] at hnew; cases hnew)

theorem isNew_ofValid (h : pol.validate = .ok ()) : (ofValid p pol h).IsNew p pol := by
  unfold ofValid
  split
  · next e he => exact ⟨e, e.simplifies, he, rfl⟩
  · next he =>
    rw [ofPolicy, h] at he
    cases he

theorem IsNew.sane {e : Engine} (h : e.IsNew p pol) (allowed : Bool → Prop) (threshold : Nat)
    (io : Console) : Desk.Sane p pol allowed ⟨e, .ofThreshold threshold, io⟩ := by
  obtain ⟨e₁, simplifies, he₁, rfl⟩ := h
  obtain ⟨hprogram, hpolicy, hall, -⟩ := ofPolicy_eq_ok he₁
  exact ⟨hprogram, hpolicy, hall, UnitStore.sound_ofThreshold p allowed threshold⟩

end Engine

-- ============================================================================
-- Trials
-- ============================================================================

namespace Trial

/-- The outcome of a trial, without what only the engine sees. -/
def outcome (t : Trial) : Outcome Console Value := .ofResult t.result t.desk.io

theorem run?_eq_some {fuel : Nat} {e : Engine} {input : List Value} {t : Trial}
    (h : run? fuel e input = some t) :
    (Engine.runProgram fuel (.ofEngine e input)).mapState Desk.io = t.outcome := by
  unfold run? at h
  cases hr : Engine.runProgram fuel (.ofEngine e input) with
  | done v d =>
    rw [hr] at h
    cases h
    rfl
  | failed x d =>
    rw [hr] at h
    cases h
    rfl
  | starved =>
    rw [hr] at h
    cases h

theorem isSome_run? {fuel : Nat} {e : Engine} {input : List Value} :
    (run? fuel e input).isSome = true ↔
      (Engine.runProgram fuel (.ofEngine e input)).mapState Desk.io ≠ .starved := by
  unfold run?
  cases Engine.runProgram fuel (.ofEngine e input) with
  | done v d => exact ⟨fun _ => nofun, fun _ => rfl⟩
  | failed x d => exact ⟨fun _ => nofun, fun _ => rfl⟩
  | starved => exact ⟨nofun, fun h => absurd rfl h⟩

variable {p : Program} {pol : Policy} {e : Engine} {input : List Value} {t : Trial}

/-- A trial keeps its result under a larger allowance. -/
theorem run?_of_le {n k : Nat} (h : n ≤ k) (ht : run? n e input = some t) :
    run? k e input = some t := by
  have hbelow := Engine.drive_below false h h
    (.interpret ⟨e.program.entry, 0⟩ e.program.entryFrame) (.ofEngine e input)
  unfold run? at ht ⊢
  rw [Engine.runProgram_eq (p := e.program) rfl] at ht ⊢
  rcases hbelow with hs | heq
  · rw [hs] at ht
    cases ht
  · rw [← heq]
    exact ht

/-- There is one trial of an engine on an input. -/
theorem run?_unique {n k : Nat} {u : Trial} (ht : run? n e input = some t)
    (hu : run? k e input = some u) : t = u := by
  have ht' := run?_of_le (Nat.le_max_left n k) ht
  rw [run?_of_le (Nat.le_max_right n k) hu] at ht'
  exact (Option.some.inj ht').symm

/-- Trials have attained what interpreting the program comes to. -/
theorem attains (he : e.IsNew p pol) (hbudget : pol.maxRegionInstrs ≤ 33554432)
    (input : List Value) (hcool : pol.enabled = true → ∀ fuel t, run? fuel e input = some t →
      t.desk.engine.heat.Tame) :
    Outcome.Attains (fun n => (Engine.runProgram n (.ofEngine e input)).mapState Desk.io)
      ((pol.machine p).whole { input }) := by
  have hreg : Engine.Regime pol (fun _ => True) false := ⟨hbudget, trivial, nofun⟩
  refine Engine.runProgram_attains (d := .ofEngine e input) hreg (he.sane _ _ _) ?_
  rintro n x d' hn ⟨hon, hhot⟩
  refine hhot (hcool hon n ⟨.error x, d'⟩ ?_)
  unfold run?
  rw [hn]

theorem exists_run?_iff {o : Outcome Console Value}
    (h : Outcome.Attains (fun n => (Engine.runProgram n (.ofEngine e input)).mapState Desk.io) o) :
    (∃ fuel, (run? fuel e input).isSome = true) ↔ o ≠ .starved := by
  constructor
  · rintro ⟨fuel, hfuel⟩
    have hne := isSome_run?.mp hfuel
    rw [← (h.1 fuel).eq_of_ne hne]
    exact hne
  · intro ho
    obtain ⟨fuel, hfuel⟩ := h.2 ho
    exact ⟨fuel, isSome_run?.mpr hfuel⟩

theorem outcome_eq {o : Outcome Console Value} {fuel : Nat}
    (h : Outcome.Attains (fun n => (Engine.runProgram n (.ofEngine e input)).mapState Desk.io) o)
    (ht : run? fuel e input = some t) : t.outcome = o := by
  have hne := isSome_run?.mp (by rw [ht]; rfl)
  rw [← run?_eq_some ht, ← (h.1 fuel).eq_of_ne hne]

/-- A policy that asks for specialization and the same policy without it lead to
the same result and the same effects, and one run ends if the other does. -/
theorem same_without_specialization {p : Program} {pol : Policy} {e e₀ : Engine}
    (he : e.IsNew p pol) (he₀ : e₀.IsNew p { pol with enabled := false })
    (hbudget : pol.maxRegionInstrs ≤ 33554432) (input : List Value)
    (htame : ∀ fuel t, run? fuel e input = some t → t.desk.engine.heat.Tame) :
    ((∃ fuel, (run? fuel e input).isSome = true) ↔ ∃ fuel, (run? fuel e₀ input).isSome = true) ∧
    ∀ fuel fuel₀ t t₀, run? fuel e input = some t → run? fuel₀ e₀ input = some t₀ →
      t.result = t₀.result ∧ t.desk.io = t₀.desk.io := by
  have h := attains he hbudget input (fun _ => htame)
  have h₀ := attains he₀ hbudget input (fun hon => nomatch hon)
  refine ⟨(exists_run?_iff h).trans (exists_run?_iff h₀).symm, fun fuel fuel₀ t t₀ ht ht₀ => ?_⟩
  exact Outcome.ofResult_inj ((outcome_eq h ht).trans (outcome_eq h₀ ht₀).symm)

/-- A loop with a merge point and a promotion site, which prints its input three
times. -/
def countdown : Function :=
  { name := "countdown", registers := 3,
    code := #[.const 0 (.int 3), .const 1 (.int 1), .input 2, .mergePoint [1], .print 2, .promote 0,
      .binary .sub 0 0 1, .branch 0 9 none, .jump 3, .ret 2] }

/-- The loop as a program. -/
def countdownProgram : Program :=
  { functions := #[countdown], entry := 0, facts := .ofFunctions #[countdown],
    faultless := by decide, facts_eq := rfl }

/-- Compiles the loop at its first arrival if it may compile at all or, when lazy,
only later. -/
def countdownPolicy (enabled lazy : Bool) : Policy :=
  { enabled, mergePointThreshold := if lazy then 5 else 1, promotionThreshold := 1,
    loopHeadersOnly := lazy }

theorem countdownPolicy_valid (enabled lazy : Bool) :
    (countdownPolicy enabled lazy).validate = .ok () := by
  cases lazy <;> rfl

/-- A new engine for the loop. -/
def countdownEngine (enabled lazy : Bool) : Engine :=
  .ofValid countdownProgram (countdownPolicy enabled lazy) (countdownPolicy_valid enabled lazy)

theorem countdownEngine_isNew (enabled lazy : Bool) :
    (countdownEngine enabled lazy).IsNew countdownProgram (countdownPolicy enabled lazy) :=
  Engine.isNew_ofValid _

/-- Units run six times where otherwise everything is interpreted. -/
theorem same_without_specialization_countdown :
    (run? 40 (countdownEngine true false) [.int 7]).map
        (fun t => t.desk.engine.stats.compiledRuns) = some 6 ∧
      ∀ fuel fuel₀ t t₀, run? fuel (countdownEngine true false) [.int 7] = some t →
        run? fuel₀ (countdownEngine false false) [.int 7] = some t₀ →
        t.result = t₀.result ∧ t.desk.io = t₀.desk.io := by
  have htame : ∀ fuel t, run? fuel (countdownEngine true false) [.int 7] = some t →
      t.desk.engine.heat.Tame := by
    intro fuel t ht
    have hall : (run? 40 (countdownEngine true false) [.int 7]).any
        (fun t => decide t.desk.engine.heat.Tame) = true := by decide +kernel
    obtain ⟨u, hu, hcool⟩ := (Option.any_eq_true _ _).mp hall
    rw [run?_unique ht hu]
    exact of_decide_eq_true hcool
  have hbudget : (countdownPolicy true false).maxRegionInstrs ≤ 33554432 := by decide
  exact ⟨by decide +kernel, (same_without_specialization (countdownEngine_isNew true false)
    (countdownEngine_isNew false false) hbudget [.int 7] htame).2⟩

end Trial

end HotPath
