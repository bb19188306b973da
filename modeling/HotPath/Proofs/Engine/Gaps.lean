/-
  HotPath.Proofs.Engine.Gaps

  Engines whose interpreter lacks capabilities. Units and decisions do not depend on
  them (`Work.Blind`), so the engine goes turn by turn as if nothing were missing,
  until a segment comes to an instruction that it cannot execute
  (`Engine.turn_goesOrCut`, `Engine.drive_goesOrCut`). A run then ends as the
  interpreter that can do everything does, or it is cut short
  (`Trial.gap_only_truncates`).
-/
import HotPath.Proofs.Engine.Equivalence
import HotPath.Proofs.Machine.Capabilities

namespace HotPath

/-- The engine with other capabilities for segments. -/
def Engine.withCapabilities (e : Engine) (can : Capabilities) : Engine :=
  { e with capabilities := can }

/-- The desk with other capabilities for segments. -/
def Desk.withCapabilities (d : Desk) (can : Capabilities) : Desk :=
  { d with engine := d.engine.withCapabilities can }

-- ============================================================================
-- Work that takes no capabilities
-- ============================================================================

/-- Work that does not depend on capabilities. -/
def Work.Blind {α : Type} (w : Work α) : Prop :=
  ∀ can d, w (d.withCapabilities can) = (w d).mapState (·.withCapabilities can)

namespace Work.Blind

variable {α β : Type}

theorem pure (a : α) : (Pure.pure a : Work α).Blind := fun _ _ => rfl

theorem bind {w : Work α} {next : α → Work β} (hw : w.Blind) (hn : ∀ a, (next a).Blind) :
    (w >>= next).Blind := by
  intro can d
  rw [bind_apply, bind_apply, hw can d]
  cases w d with
  | done a d' => exact hn a can d'
  | failed e d' => rfl
  | starved => rfl

/-- Work that looks at the desk, but not at its capabilities. -/
theorem desk {next : Desk → Work β} (hsame : ∀ can d, next (d.withCapabilities can) = next d)
    (hn : ∀ d, (next d).Blind) : (Work.desk >>= next).Blind := by
  intro can d
  rw [desk_bind, desk_bind, hsame]
  exact hn d can d

theorem lift (x : Except Fault α) : (Work.lift x).Blind := by
  intro can d
  cases x with
  | ok a => rfl
  | error e => rfl

theorem tally (change : Stats → Stats) : (Work.tally change).Blind := fun _ _ => rfl

theorem observe (k : HeatKey) : (Work.observe k).Blind := fun _ _ => rfl

theorem onStore (change : UnitStore → α × UnitStore) : (Work.onStore change).Blind := fun _ _ => rfl

theorem enter (new : Phase) (loc : Location) : (Work.enter new loc).Blind := by
  intro can d
  unfold Work.enter
  show (if d.engine.phase.canTurnInto new = true then _ else _) = _
  split
  · rfl
  · rfl

end Work.Blind

namespace Engine

theorem blind_compile (r : Region) (entry : UnitEntry) (f : Frame) : (compile r entry f).Blind := by
  refine .desk (fun _ _ => rfl) (fun d => ?_)
  cases r.specialize d.guide with
  | ok verdict =>
    cases verdict with
    | committed t => exact fun _ _ => rfl
    | empty => exact fun _ _ => rfl
    | fallback reason => exact fun _ _ => rfl
  | error e =>
    cases e with
    | mergeIncompatible reason => exact fun _ _ => rfl
    | _ => exact fun _ _ => rfl

theorem blind_interpretAfter (loc : Location) (f : Frame) : (interpretAfter loc f).Blind :=
  .bind (.lift _) (fun _ => .pure _)

theorem blind_fallBackAfter (loc : Location) (f : Frame) : (fallBackAfter loc f).Blind :=
  .bind (.lift _) (fun _ => .pure _)

theorem blind_compileMergePoint (loc : Location) (f : Frame) (k : MergeKey) :
    (compileMergePoint loc f k).Blind := by
  refine .bind (.enter _ _) (fun _ => .desk (fun _ _ => rfl) (fun d => .bind (.lift _) (fun r => ?_)))
  refine .bind (blind_compile r _ f) (fun c => ?_)
  cases c with
  | unit u => exact .bind (.onStore _) (fun _ => .pure _)
  | interpret => exact blind_interpretAfter loc f
  | fallBack => exact blind_fallBackAfter loc f

theorem blind_onMergePoint (loc : Location) (f : Frame) : (onMergePoint loc f).Blind := by
  refine .bind (.enter _ _) (fun _ => .bind (.tally _) (fun _ => .desk (fun _ _ => rfl) (fun d => ?_)))
  split
  · dsimp only
    split
    · exact .pure _
    · refine .bind (.observe _) (fun count => ?_)
      split
      · exact blind_interpretAfter loc f
      · exact blind_compileMergePoint loc f _
  · exact blind_interpretAfter loc f

theorem blind_compilePromotion (site : Location) (f : Frame) (entry : UnitEntry) (r : Region)
    (install : CodeUnit → UnitStore → Bool × UnitStore) :
    (compilePromotion site f entry r install).Blind := by
  refine .desk (fun _ _ => rfl) (fun d => ?_)
  split
  · exact blind_fallBackAfter site f
  · refine .bind (.enter _ _) (fun _ => .bind (blind_compile r entry f) (fun c => ?_))
    cases c with
    | unit u => exact .bind (.onStore _) (fun _ => .pure _)
    | interpret => exact blind_fallBackAfter site f
    | fallBack => exact blind_fallBackAfter site f

theorem blind_onPromotion (site : Location) (reg : Reg) (f : Frame) :
    (onPromotion site reg f).Blind := by
  refine .bind (.tally _) (fun _ => .desk (fun _ _ => rfl) (fun d => ?_))
  split
  · refine .bind (fun _ _ => rfl) (fun decision => ?_)
    cases decision with
    | cached u => exact .pure _
    | fallback => exact blind_fallBackAfter site f
    | specialize => exact .bind (.lift _) (fun r => blind_compilePromotion _ _ _ r _)
    | specializeGeneric => exact .bind (.lift _) (fun next => blind_compilePromotion _ _ _ _ _)
  · exact blind_fallBackAfter site f

/-- Units can do everything. -/
theorem blind_runUnit (fuel : Nat) (u : CodeUnit) (f : Frame) : (runUnit fuel u f).Blind := by
  intro can d
  have hmachine : (d.withCapabilities can).engine.unitMachine = d.engine.unitMachine := rfl
  have hio : (d.withCapabilities can).io = d.io := rfl
  unfold runUnit
  rw [hmachine, hio]
  cases u.run d.engine.unitMachine fuel f d.io with
  | done e io => rfl
  | failed e io => rfl
  | starved => rfl

theorem blind_afterUnit (single : Bool) (e : Exit) : (afterUnit single e).Blind := by
  unfold afterUnit
  cases e.kind with
  | promotion reg => exact blind_onPromotion _ _ _
  | fallback => exact .pure _
  | mergePoint | returned => exact .pure _

end Engine

-- ============================================================================
-- Runs that are cut short
-- ============================================================================

/-- A run was cut short where an execution has come to. The next instruction of the
execution needs a capability that is missing, and the fault names it; the consoles are
the same; and nothing is specialized any more. -/
structure Execution.CutShort (x : Execution) (p : Program) (can : Capabilities) (fault : Fault)
    (d : Desk) : Prop where
  needs : ∃ i c, p.instr? x.spot.loc = some i ∧ i.needs = some c ∧ can.has c = false ∧
    fault = .gap c x.spot.loc
  io_eq : d.io = x.spot.io
  disabled : d.store.disabled = true

/-- Work goes as with all capabilities, or is cut short where the machine that has
them comes to from a spot. -/
def Outcome.GoesOrCut {α : Type} (m : Machine) (can : Capabilities) (s : Spot)
    (o full : Outcome Desk α) : Prop :=
  o = full.mapState (·.withCapabilities can) ∨
    ∃ fault d x, o = .failed fault d ∧ m.Gets ⟨s, []⟩ x ∧ x.CutShort m.program can fault d

theorem Work.Blind.goesOrCut {α : Type} {w : Work α} (h : w.Blind) (m : Machine)
    (can : Capabilities) (s : Spot) (d : Desk) :
    (w (d.withCapabilities can)).GoesOrCut m can s (w d) := Or.inl (h can d)

/-- One piece of work after another. -/
theorem Work.goesOrCut_bind {α β : Type} {m : Machine} {can : Capabilities} {s : Spot} {w : Work α}
    {next : α → Work β} {d : Desk} (hw : (w (d.withCapabilities can)).GoesOrCut m can s (w d))
    (hn : ∀ a d', w d = .done a d' →
      (next a (d'.withCapabilities can)).GoesOrCut m can s (next a d')) :
    ((w >>= next) (d.withCapabilities can)).GoesOrCut m can s ((w >>= next) d) := by
  rw [bind_apply, bind_apply]
  rcases hw with hw | ⟨fault, d', x, hw, hcut⟩
  · rw [hw]
    cases hr : w d with
    | done a d' => exact hn a d' hr
    | failed e d' => exact Or.inl rfl
    | starved => exact Or.inl rfl
  · rw [hw]
    exact Or.inr ⟨fault, d', x, rfl, hcut⟩

namespace Engine

variable {p : Program} {pol : Policy} {allowed : Bool → Prop} {single : Bool} {d : Desk} {s : Spot}
  {next : Next} (can : Capabilities)

/-- A segment is cut short where it comes to an instruction that cannot be
executed. -/
theorem interpret_goesOrCut (hd : d.Sane p pol allowed) (hf : s.frame.IsFor p s.loc)
    (hio : s.io = d.io) (fuel : Nat) :
    (interpret fuel single s.loc s.frame (d.withCapabilities can)).GoesOrCut (pol.machine p) can s
      (interpret fuel single s.loc s.frame d) := by
  have hcapped : (d.withCapabilities can).engine.interpreter =
      (pol.machine p).withCapabilities can := by
    rw [← hd.interpreter_eq]
    rfl
  have hresume : (((pol.machine p).withCapabilities can).resume fuel s.loc s.frame s.io).UpToGap
      ((pol.machine p).resume fuel s.loc s.frame s.io) :=
    Machine.resume_upToGap rfl fuel s.loc s.frame s.io
  unfold interpret Machine.segment
  rw [hcapped, hd.interpreter_eq, show (d.withCapabilities can).profile.io = s.io from hio.symm,
    show d.profile.io = s.io from hio.symm]
  rcases hresume with ⟨c, loc, t, hr⟩ | hr
  · rw [hr]
    obtain ⟨fn, hfn, hsize⟩ := hf
    have hwalk := Machine.mapState_resume (m := (pol.machine p).withCapabilities can) hfn hsize fuel
    rw [hr] at hwalk
    obtain ⟨n, x, hx, rfl, hxio, i, hi, hn, hc⟩ :=
      Machine.exists_after_of_gap (m := pol.machine p) rfl hwalk.symm
    exact Or.inr ⟨_, _, x, rfl, ⟨n, hx⟩, ⟨i, c, hi, hn, hc, rfl⟩, hxio.symm, rfl⟩
  · rw [hr]
    cases (pol.machine p).resume fuel s.loc s.frame s.io with
    | starved => exact Or.inl rfl
    | done e t => exact Or.inl rfl
    | failed e t =>
      cases e with
      | gap c loc => exact Or.inl rfl
      | _ => exact Or.inl rfl

/-- The same, once the engine has entered a phase and counted. -/
theorem segment_goesOrCut (hd : d.Sane p pol allowed) (hf : s.frame.IsFor p s.loc)
    (hio : s.io = d.io) {new : Phase} (hready : d.engine.phase.canTurnInto new = true)
    (change : Stats → Stats) (fuel : Nat) :
    ((do
      Work.enter new s.loc
      Work.tally change
      interpret fuel single s.loc s.frame : Work Next) (d.withCapabilities can)).GoesOrCut
        (pol.machine p) can s
      ((do
        Work.enter new s.loc
        Work.tally change
        interpret fuel single s.loc s.frame : Work Next) d) := by
  have hd : d.Deciding p pol allowed d.engine.phase d := ⟨hd, rfl, rfl⟩
  refine Work.goesOrCut_bind (Work.Blind.goesOrCut (.enter new s.loc) _ _ _ _) (fun _ d₁ hr₁ => ?_)
  have h₁ : (Outcome.done () d₁).Meets (fun _ => d.Deciding p pol allowed new)
      (fun _ _ => False) False := hr₁ ▸ hd.enter hready s.loc
  refine Work.goesOrCut_bind (Work.Blind.goesOrCut (.tally change) _ _ _ _) (fun _ d₂ hr₂ => ?_)
  have h₂ : (Outcome.done () d₂).Meets (fun _ => d.Deciding p pol allowed new)
      (fun _ _ => False) False := hr₂ ▸ Desk.Deciding.tally h₁ change
  exact interpret_goesOrCut can h₂.toSane hf (hio.trans h₂.io_eq.symm) fuel

/-- A turn is cut short only if its segment is. -/
theorem turn_goesOrCut (h : Running p pol allowed single d next s) (fuel : Nat) :
    (turn fuel single next (d.withCapabilities can)).GoesOrCut (pol.machine p) can s
      (turn fuel single next d) := by
  obtain ⟨hsane, hready, hstands, hf, hio⟩ := h
  cases hstands with
  | finish => exact Work.Blind.goesOrCut (.pure _) _ _ _ _
  | arrive => exact (blind_onMergePoint _ _).goesOrCut _ _ _ _
  | resumes hres =>
    obtain ⟨loc, f, io⟩ := s
    cases hres with
    | interpret => exact segment_goesOrCut can hsane hf hio hready _ fuel
    | fallBack => exact segment_goesOrCut can hsane hf hio hready _ fuel
    | @execute u _ f _ _ _ _ =>
      refine Work.Blind.goesOrCut ?_ _ _ _ _
      exact .bind (.enter _ _) (fun _ => .bind (.tally _) (fun _ =>
        .bind (blind_runUnit fuel u f) (blind_afterUnit single)))

/-- So do turns after turns: the engine goes on as with all capabilities, from a
spot that the interpreter comes to, until it is cut short. -/
theorem drive_goesOrCut (hreg : Regime pol allowed single)
    (h : Running p pol allowed single d next s) (fuel n : Nat) :
    (drive fuel single n next (d.withCapabilities can)).GoesOrCut (pol.machine p) can s
      (drive fuel single n next d) := by
  induction n generalizing next d s with
  | zero => exact Or.inl rfl
  | succ n ih =>
    rcases Nat.eq_zero_or_pos next.rank with hr | hr
    · cases next with
      | finish e =>
        exact Work.Blind.goesOrCut (.bind (.enter _ _) (fun _ => .pure _)) _ _ _ _
      | _ => cases hr
    · rw [drive_succ hr]
      refine Work.goesOrCut_bind (turn_goesOrCut can h fuel) (fun next' d' hturn => ?_)
      have hturned := turn_meets hreg h hr fuel
      rw [hturn] at hturned
      obtain ⟨s', hrunning, hadv⟩ := hturned
      rcases ih hrunning with hgoes | ⟨fault, d'', x, hfails, hgets, hcut⟩
      · exact Or.inl hgoes
      · exact Or.inr ⟨fault, d'', x, hfails, hadv.reaches.gets.trans hgets, hcut⟩

theorem runProgram_goesOrCut (hreg : Regime pol allowed false) (hd : d.Sane p pol allowed)
    (n : Nat) :
    (runProgram n (d.withCapabilities can)).GoesOrCut (pol.machine p) can (p.start d.io)
      (runProgram n d) := by
  have hprogram : (d.withCapabilities can).engine.program = p := hd.program_eq
  rw [runProgram_eq hprogram, runProgram_eq hd.program_eq]
  rcases drive_goesOrCut can hreg (running_start hd) n n with
    hgoes | ⟨fault, d', x, hfails, hcut⟩
  · rw [hgoes, ← Outcome.mapState_returned]
    exact Or.inl rfl
  · rw [hfails]
    exact Or.inr ⟨fault, d', x, rfl, hcut⟩

end Engine

-- ============================================================================
-- Trials
-- ============================================================================

/-- What a frame leaves in all cases is what its result was left with. -/
theorem Outcome.Meets.of_returned {σ : Type} {o : Outcome σ Exit} {P : σ → Prop}
    (h : o.Meets (fun _ => P) (fun _ => P) True) {r : Except Fault Value} {s : σ}
    (ho : o.returned = .ofResult r s) : P s := by
  cases o with
  | done e s' =>
    obtain ⟨-, rfl⟩ := ofResult_inj ho
    exact h
  | failed x s' =>
    obtain ⟨-, rfl⟩ := ofResult_inj (r := .error x) ho
    exact h
  | starved => exact absurd ho.symm (ofResult_ne_starved _ _)

namespace Trial

variable {p : Program} {pol : Policy} {e : Engine} {input : List Value} {t : Trial}

/-- A trial of an engine that lacks capabilities is one with all of them, or it was
cut short. -/
theorem run?_withCapabilities (he : e.IsNew p pol) (hbudget : pol.maxRegionInstrs ≤ 33554432)
    (can : Capabilities) (fuel : Nat) (input : List Value) :
    run? fuel (e.withCapabilities can) input =
        (run? fuel e input).map (fun t => ⟨t.result, t.desk.withCapabilities can⟩) ∨
      ∃ fault d x, run? fuel (e.withCapabilities can) input = some ⟨.error fault, d⟩ ∧
        (pol.machine p).Gets ⟨p.start { input }, []⟩ x ∧ x.CutShort p can fault d := by
  have hreg : Engine.Regime pol (fun _ => True) false := ⟨hbudget, trivial, nofun⟩
  have hsane := he.sane (fun _ => True) e.policy.megamorphicThreshold { input }
  have hrun : (Engine.runProgram fuel (.ofEngine (e.withCapabilities can) input)).GoesOrCut
      (pol.machine p) can (p.start { input }) (Engine.runProgram fuel (.ofEngine e input)) :=
    Engine.runProgram_goesOrCut can hreg hsane fuel
  unfold run?
  rcases hrun with hgoes | ⟨fault, d, x, hfails, hcut⟩
  · rw [hgoes]
    cases Engine.runProgram fuel (.ofEngine e input) with
    | done v d => exact Or.inl rfl
    | failed x d => exact Or.inl rfl
    | starved => exact Or.inl rfl
  · rw [hfails]
    exact Or.inr ⟨fault, d, x, rfl, hcut⟩

/-- A trial with all capabilities is the end of every execution that interpreting the
program comes to. -/
theorem completes_of_outcome {n : Nat} {x : Execution}
    (ht : t.outcome = (pol.machine p).whole { input })
    (hx : (pol.machine p).after n ⟨p.start { input }, []⟩ = some x) :
    ∃ o, (pol.machine p).Completes x o ∧ o.returned = t.outcome := by
  refine ⟨(pol.machine p).final (fun _ => false) (p.start { input }), ?_, ht.symm⟩
  refine Machine.Completes.of_after (Machine.completes_final rfl (fun hs => ?_)) hx
  have hstarved : t.outcome = .starved := ht.trans (Outcome.returned_eq_starved.mpr hs)
  exact Outcome.ofResult_ne_starved _ _ hstarved

/-- A missing capability can only cut a run short. Either the run is that of the
interpreter with all capabilities, with the same result and the same effects. Or it
ends where that interpreter comes to an instruction that needs a missing one; then
the interpreter has executed so many instructions with the same effects, and goes on
from there to its own end. -/
theorem gap_only_truncates {p : Program} {pol : Policy} {e e₀ : Engine} (he : e.IsNew p pol)
    (he₀ : e₀.IsNew p { pol with enabled := false }) (hbudget : pol.maxRegionInstrs ≤ 33554432)
    (can : Capabilities) (input : List Value)
    (htame : ∀ fuel t, run? fuel (e.withCapabilities can) input = some t →
      t.desk.engine.heat.Tame) :
    ((∃ fuel, (run? fuel e₀ input).isSome = true) →
      ∃ fuel, (run? fuel (e.withCapabilities can) input).isSome = true) ∧
    ∀ fuel t, run? fuel (e.withCapabilities can) input = some t →
      (∃ fuel₀ t₀, run? fuel₀ e₀ input = some t₀ ∧ t.result = t₀.result ∧
        t.desk.io = t₀.desk.io) ∨
      ∃ fault n x, t.result = .error fault ∧
        (pol.machine p).after n ⟨p.start { input }, []⟩ = some x ∧
        x.CutShort p can fault t.desk ∧
        ∀ fuel₀ t₀, run? fuel₀ e₀ input = some t₀ →
          (∃ o, (pol.machine p).Completes x o ∧ o.returned = t₀.outcome) ∧
          t.output.toList <+: t₀.output.toList := by
  have h₀ := attains he₀ hbudget input (fun hon => nomatch hon)
  have hruns := fun fuel => run?_withCapabilities he hbudget can fuel input
  by_cases hcut : ∃ fuel fault d x,
      run? fuel (e.withCapabilities can) input = some ⟨.error fault, d⟩ ∧
        (pol.machine p).Gets ⟨p.start { input }, []⟩ x ∧ x.CutShort p can fault d
  · obtain ⟨fuel₁, fault, d, x, hrun, ⟨n, hx⟩, hcut⟩ := hcut
    refine ⟨fun _ => ⟨fuel₁, by rw [hrun]; rfl⟩, fun fuel t ht => Or.inr ?_⟩
    rw [run?_unique ht hrun]
    refine ⟨fault, n, x, rfl, hx, hcut, fun fuel₀ t₀ ht₀ => ?_⟩
    obtain ⟨o, hends, ho⟩ := completes_of_outcome (outcome_eq h₀ ht₀) hx
    have hprinted := Outcome.Meets.of_returned hends.printed ho
    rw [← hcut.io_eq] at hprinted
    exact ⟨⟨o, hends, ho⟩, List.reverse_prefix.mpr hprinted⟩
  · -- nothing is missing under any allowance, so the two engines run alike
    have hsame : ∀ fuel, run? fuel (e.withCapabilities can) input =
        (run? fuel e input).map (fun t => ⟨t.result, t.desk.withCapabilities can⟩) := by
      intro fuel
      refine (hruns fuel).resolve_right ?_
      rintro ⟨fault, d, x, hd⟩
      exact hcut ⟨fuel, fault, d, x, hd⟩
    have h := attains he hbudget input (fun _ fuel t ht =>
      htame fuel ⟨t.result, t.desk.withCapabilities can⟩ (by rw [hsame, ht]; rfl))
    refine ⟨fun hends => ?_, fun fuel t ht => Or.inl ?_⟩
    · obtain ⟨fuel, hfuel⟩ := (exists_run?_iff h).mpr ((exists_run?_iff h₀).mp hends)
      refine ⟨fuel, ?_⟩
      rw [hsame, Option.isSome_map]
      exact hfuel
    · rw [hsame] at ht
      obtain ⟨u, hu, rfl⟩ := Option.map_eq_some_iff.mp ht
      have hends : ∃ fuel, (run? fuel e input).isSome = true := ⟨fuel, by rw [hu]; rfl⟩
      obtain ⟨fuel₀, hfuel₀⟩ := (exists_run?_iff h₀).mpr ((exists_run?_iff h).mp hends)
      obtain ⟨t₀, ht₀⟩ := Option.isSome_iff_exists.mp hfuel₀
      obtain ⟨hresult, hio⟩ := Outcome.ofResult_inj ((outcome_eq h hu).trans (outcome_eq h₀ ht₀).symm)
      exact ⟨fuel₀, t₀, ht₀, hresult, hio⟩

/-- A loop that prints on both sides of a promotion site. -/
def stutter : Function :=
  { name := "stutter", registers := 2,
    code := #[.const 0 (.int 3), .const 1 (.int 1), .mergePoint [1], .print 0, .promote 0, .print 1,
      .binary .sub 0 0 1, .branch 0 9 none, .jump 2, .ret 1] }

/-- The loop as a program. -/
def stutterProgram : Program :=
  { functions := #[stutter], entry := 0, facts := .ofFunctions #[stutter], faultless := by decide,
    facts_eq := rfl }

/-- Compiles the loop at its first arrival if it may compile at all, up to the
promotion site. -/
def stutterPolicy (enabled : Bool) : Policy :=
  { enabled, mergePointThreshold := 1, promotionThreshold := 9 }

/-- A new engine for the loop. -/
def stutterEngine (enabled : Bool) : Engine :=
  .ofValid stutterProgram (stutterPolicy enabled) rfl

theorem stutterEngine_isNew (enabled : Bool) :
    (stutterEngine enabled).IsNew stutterProgram (stutterPolicy enabled) :=
  Engine.isNew_ofValid _

/-- Everything but input and output. -/
def mute : Capabilities := { Capabilities.all with io := false }

/-- A unit prints the first value. The second one is for the interpreter, which
cannot print. -/
theorem gap_only_truncates_stutter :
    ∃ t t₀ n x, run? 40 ((stutterEngine true).withCapabilities mute) [] = some t ∧
      run? 40 (stutterEngine false) [] = some t₀ ∧
      t.desk.engine.stats.compiledRuns = 1 ∧ t.result = .error (.gap .io ⟨0, 5⟩) ∧
      ((stutterPolicy true).machine stutterProgram).after n ⟨stutterProgram.start {}, []⟩ = some x ∧
      x.CutShort stutterProgram mute (.gap .io ⟨0, 5⟩) t.desk ∧
      t.output = #[.int 3] ∧ t₀.output = #[.int 3, .int 1, .int 2, .int 1, .int 1, .int 1] ∧
      t.output.toList <+: t₀.output.toList := by
  have hrun : (run? 40 ((stutterEngine true).withCapabilities mute) []).any (fun t =>
      t.desk.engine.heat.Tame ∧ t.desk.engine.stats.compiledRuns = 1 ∧
        t.outcome.fault? = some (.gap .io ⟨0, 5⟩) ∧ t.output = #[.int 3]) = true := by
    decide +kernel
  have hrun₀ : (run? 40 (stutterEngine false) []).any (fun t =>
      t.output = #[.int 3, .int 1, .int 2, .int 1, .int 1, .int 1]) = true := by
    decide +kernel
  obtain ⟨t, ht, hrun⟩ := (Option.any_eq_true _ _).mp hrun
  obtain ⟨hcool, hunits, hgap, hout⟩ := of_decide_eq_true hrun
  obtain ⟨t₀, ht₀, hout₀⟩ := (Option.any_eq_true _ _).mp hrun₀
  have hout₀ := of_decide_eq_true hout₀
  have htame : ∀ fuel u, run? fuel ((stutterEngine true).withCapabilities mute) [] = some u →
      u.desk.engine.heat.Tame := fun fuel u hu => run?_unique hu ht ▸ hcool
  have hbudget : (stutterPolicy true).maxRegionInstrs ≤ 33554432 := by decide
  have hends := (gap_only_truncates (stutterEngine_isNew true) (stutterEngine_isNew false) hbudget
    mute [] htame).2 40 t ht
  rcases hends with ⟨fuel₀, u, hu, -, hio⟩ | ⟨fault, n, x, hfault, hx, hcut, hfull⟩
  · -- the whole loop prints more
    have hsame : t.output = t₀.output := by
      rw [run?_unique ht₀ hu]
      exact congrArg Console.output hio
    rw [hout, hout₀] at hsame
    exact absurd hsame (by decide)
  · unfold outcome at hgap
    rw [hfault] at hgap
    obtain rfl : fault = .gap .io ⟨0, 5⟩ := Option.some.inj hgap
    exact ⟨t, t₀, n, x, ht, ht₀, hunits, hfault, hx, hcut, hout, hout₀, (hfull 40 t₀ ht₀).2⟩

end Trial

end HotPath
