/-
  HotPath.Proofs.Engine.Steps

  Single steps of an engine. Whoever handles the arrivals of a run one by one
  sees what the interpreter does from one dispatch point to the next, whatever
  the engine has counted, compiled and installed by then: `Arrival.attains_resumes`
  compares a step with resuming the interpreter after the arrival.

  By then the engine may have been called in any way that succeeded
  (`Engine.History`), with one restriction: whoever reports a promotion names the
  register of its site. A report with another register installs a unit that has
  fixed that register, and later steps at the site run it
  (`Arrival.attains_resumes_fails`).
-/
import HotPath.Proofs.Engine.Equivalence

namespace HotPath

-- ============================================================================
-- Calls from outside
-- ============================================================================

/-- What a step can be asked for. -/
inductive Arrival where
  | mergePoint (loc : Location) (frame : Frame)
  | promotion (site : Location) (reg : Reg) (frame : Frame)

namespace Arrival

/-- The address arrived at. -/
def loc : Arrival → Location
  | .mergePoint loc _ => loc
  | .promotion site _ _ => site

/-- The frame at the arrival. -/
def frame : Arrival → Frame
  | .mergePoint _ f => f
  | .promotion _ _ f => f

/-- Handles an arrival, up to the next merge point or a return. -/
def handle (fuel : Nat) : Arrival → Work Exit
  | .mergePoint loc f => Engine.arrive fuel loc f
  | .promotion site reg f => Engine.promote fuel site reg f

/-- The program has such an instruction at the address. -/
def IsAt (p : Program) : Arrival → Prop
  | .mergePoint loc _ => ∃ greens, p.instr? loc = some (.mergePoint greens)
  | .promotion site reg _ => p.instr? site = some (.promote reg)

/-- A promotion that is reported for a promotion site names the site's register. -/
def NamesSite (p : Program) : Arrival → Prop
  | .mergePoint _ _ => True
  | .promotion site reg _ => ∀ r, p.instr? site = some (.promote r) → r = reg

end Arrival

namespace Engine

/-- How an engine can be called. -/
inductive Call where
  | program
  | run (loc : Location) (frame : Frame)
  | arrival (a : Arrival)

namespace Call

/-- Makes a call, and forgets what it gives. -/
def make (fuel : Nat) : Call → Work Unit
  | .program => do
    let _ ← runProgram fuel
    return ()
  | .run loc f => do
    let _ ← Engine.run fuel loc f
    return ()
  | .arrival a => do
    let _ ← a.handle fuel
    return ()

/-- Frames have the registers of their function. -/
def FramesFit (p : Program) : Call → Prop
  | .program => True
  | .run loc f => f.IsFor p loc
  | .arrival a => a.frame.IsFor p a.loc

/-- Promotions are reported with the registers of their sites. -/
def NamesSites (p : Program) : Call → Prop
  | .program => True
  | .run _ _ => True
  | .arrival a => a.NamesSite p

end Call

/-- An engine and its store after calls that succeeded, each on a console of its
own. In between it may change its mind about useless operations of units. -/
inductive History (p : Program) (pol : Policy) (ok : Call → Prop) : Engine → UnitStore → Prop where
  | new {e : Engine} (he : e.IsNew p pol) :
    History p pol ok e (.ofThreshold pol.megamorphicThreshold)
  | call {e : Engine} {s : UnitStore} {io : Console} {c : Call} {fuel : Nat} {d : Desk}
    (h : History p pol ok e s) (hc : ok c) (hd : c.make fuel ⟨e, s, io⟩ = .done () d) :
    History p pol ok d.engine d.store
  | backend {e : Engine} {s : UnitStore} (h : History p pol ok e s) (simplifies : Bool) :
    History p pol ok { e with simplifies } s

/-- What holds between calls. -/
structure Idle (p : Program) (pol : Policy) (e : Engine) (s : UnitStore) : Prop where
  sane : ∀ io, Desk.Sane p pol (· = pol.loopHeadersOnly) ⟨e, s, io⟩
  phase_eq : e.phase = .interpreting

variable {p : Program} {pol : Policy} {single : Bool}

theorem regime_own (hbudget : pol.maxRegionInstrs ≤ 33554432) (single : Bool) :
    Regime pol (· = pol.loopHeadersOnly) single :=
  ⟨hbudget, rfl, fun _ _ h => h⟩

theorem Driven.idle {s : Spot} {x : Exit} {d' : Desk}
    (h : Driven p pol (· = pol.loopHeadersOnly) single s x d') : Idle p pol d'.engine d'.store :=
  ⟨fun _ => ⟨h.sane.program_eq, h.sane.policy_eq, h.sane.capabilities_eq, h.sane.sound⟩, h.phase_eq⟩

theorem Idle.deciding {e : Engine} {s : UnitStore} (h : Idle p pol e s) (io : Console) :
    Desk.Deciding p pol (· = pol.loopHeadersOnly) ⟨e, s, io⟩ .interpreting ⟨e, s, io⟩ :=
  ⟨h.sane io, rfl, h.phase_eq⟩

theorem arrive_succ (n : Nat) (loc : Location) (f : Frame) :
    arrive (n + 1) loc f = (onMergePoint loc f >>= drive (n + 1) true n) := rfl

theorem promote_eq (n : Nat) (site : Location) (reg : Reg) (f : Frame) :
    promote n site reg f = (onPromotion site reg f >>= drive n true n) := rfl

/-- A step that succeeds leaves the engine as it should be between calls. -/
theorem Idle.handle {e : Engine} {s : UnitStore} (h : Idle p pol e s)
    (hbudget : pol.maxRegionInstrs ≤ 33554432) {a : Arrival} (hf : a.frame.IsFor p a.loc)
    (hsite : a.NamesSite p) (fuel : Nat) (io : Console) :
    (a.handle fuel ⟨e, s, io⟩).Meets (fun _ d => Idle p pol d.engine d.store) (fun _ _ => True)
      True := by
  have hreg := regime_own hbudget true
  cases a with
  | mergePoint loc f =>
    cases fuel with
    | zero => trivial
    | succ n =>
      rw [Arrival.handle, arrive_succ]
      refine Work.meets_bind ((onMergePoint_meets (h.deciding io) rfl hbudget rfl hf).imp
        (fun _ _ => id) (fun _ _ _ => trivial) False.elim) (fun next d hd => ?_)
      exact (drive_meets hreg (running_of_decided hd hf) (n + 1) n).imp
        (fun _ _ hdriven => hdriven.idle) (fun _ _ _ => trivial) id
  | promotion site reg f =>
    rw [Arrival.handle, promote_eq]
    refine Work.meets_bind ((onPromotion_meets (h.deciding io) (fun _ => rfl) hbudget rfl hf
      hsite).imp (fun _ _ => id) (fun _ _ _ => trivial) False.elim) ?_
    rintro next d ⟨f', hd, hsize, -⟩
    obtain ⟨fn, hfn, hregs⟩ := hf
    have hf' : f'.IsFor p site.after := ⟨fn, hfn, hsize.trans hregs⟩
    exact (drive_meets hreg (running_of_decided hd hf') fuel fuel).imp
      (fun _ _ hdriven => hdriven.idle) (fun _ _ _ => trivial) id

/-- So does every call. -/
theorem Idle.make {e : Engine} {s : UnitStore} (h : Idle p pol e s)
    (hbudget : pol.maxRegionInstrs ≤ 33554432) {c : Call} (hf : c.FramesFit p)
    (hsite : c.NamesSites p) (fuel : Nat) (io : Console) :
    (c.make fuel ⟨e, s, io⟩).Meets (fun _ d => Idle p pol d.engine d.store) (fun _ _ => True)
      True := by
  have hreg := regime_own hbudget false
  cases c with
  | arrival a => exact Work.meets_bind (h.handle hbudget hf hsite fuel io) (fun _ _ => id)
  | run loc f =>
    have hrunning : Running p pol (· = pol.loopHeadersOnly) false ⟨e, s, io⟩ (.interpret loc f)
        ⟨loc, f, io⟩ := ⟨h.sane io, by rw [h.phase_eq]; rfl, .resumes (.interpret _ _), hf, rfl⟩
    exact Work.meets_bind ((drive_meets hreg hrunning fuel fuel).imp
      (fun _ _ hdriven => hdriven.idle) (fun _ _ _ => trivial) id) (fun _ _ => id)
  | program =>
    have hmeets := drive_meets hreg (running_start (h.sane io)) fuel fuel
    have hprogram : (runProgram fuel ⟨e, s, io⟩).Meets (fun _ d => Idle p pol d.engine d.store)
        (fun _ _ => True) True := by
      rw [runProgram_eq (h.sane io).program_eq]
      exact (hmeets.imp (fun _ _ hdriven => hdriven.idle) (fun _ _ _ => trivial) id).returned
    exact Work.meets_bind hprogram (fun _ _ => id)

/-- An engine that was called in order is as it should be between calls. -/
theorem History.idle {e : Engine} {s : UnitStore}
    (h : History p pol (fun c => c.FramesFit p ∧ c.NamesSites p) e s)
    (hbudget : pol.maxRegionInstrs ≤ 33554432) : Idle p pol e s := by
  induction h with
  | new he =>
    refine ⟨fun io => he.sane _ _ io, ?_⟩
    obtain ⟨e₁, simplifies, he₁, rfl⟩ := he
    exact (ofPolicy_eq_ok he₁).2.2.2
  | @call e s io c fuel d _ hc hd ih =>
    have hmeets := ih.make hbudget hc.1 hc.2 fuel io
    rw [hd] at hmeets
    exact hmeets
  | backend _ simplifies ih =>
    refine ⟨fun io => ?_, ih.phase_eq⟩
    have hsane := ih.sane io
    exact ⟨hsane.program_eq, hsane.policy_eq, hsane.capabilities_eq, hsane.sound⟩

end Engine

-- ============================================================================
-- Steps and segments
-- ============================================================================

namespace Outcome

variable {σ α : Type}

/-- What an outcome leaves, if it is not starved. -/
def state? : Outcome σ α → Option σ
  | .done _ s => some s
  | .failed _ s => some s
  | .starved => none

/-- What an outcome is done with, if it is. -/
def result? : Outcome σ α → Option α
  | .done a _ => some a
  | .failed _ _ => none
  | .starved => none

/-- A larger allowance leaves the same. -/
theorem Chain.state?_unique {x : Nat → Outcome σ α} (h : Chain x) {n k : Nat} {s t : σ}
    (hs : (x n).state? = some s) (ht : (x k).state? = some t) : s = t := by
  have hne : ∀ {i u}, (x i).state? = some u → x i ≠ .starved := by
    intro i u hi hstarved
    rw [hstarved] at hi
    cases hi
  have hn := (h.below (Nat.le_max_left n k)).eq_of_ne (hne hs)
  have hk := (h.below (Nat.le_max_right n k)).eq_of_ne (hne ht)
  rw [hn, ← hk, ht] at hs
  exact (Option.some.inj hs).symm

end Outcome

namespace Arrival

open Engine

/-- A single step is a segment of the interpreter: the same exit with the same
registers and taint, or the same fault, and the same effects. -/
theorem attains_resumes {p : Program} {pol : Policy} {e : Engine} {s : UnitStore}
    (hhistory : History p pol (fun c => c.FramesFit p ∧ c.NamesSites p) e s)
    (hbudget : pol.maxRegionInstrs ≤ 33554432) {a : Arrival} (ha : a.IsAt p)
    (hf : a.frame.IsFor p a.loc) (io : Console)
    (htame : ∀ fuel d, (a.handle fuel ⟨e, s, io⟩).state? = some d → d.engine.heat.Tame) :
    Outcome.Attains (fun fuel => (a.handle fuel ⟨e, s, io⟩).mapState Desk.io)
      ((pol.machine p).resumes ⟨a.loc.after, a.frame, io⟩) := by
  have hidle := hhistory.idle hbudget
  have hreg := regime_own hbudget true
  have hcool : ∀ fuel x d, a.handle fuel ⟨e, s, io⟩ = .failed x d → ¬ d.Overheated pol :=
    fun fuel x d hx hhot => hhot.2 (htame fuel d (by rw [hx]; rfl))
  obtain ⟨fn, hfn, hsize⟩ := hf
  rw [Machine.resumes_eq_final (s := ⟨a.loc.after, a.frame, io⟩) hfn hsize]
  cases a with
  | mergePoint loc f =>
    obtain ⟨greens, hi⟩ := ha
    have hrunning : Running p pol (· = pol.loopHeadersOnly) true ⟨e, s, io⟩ (.arrive loc f)
        ⟨loc.after, f, io⟩ :=
      ⟨hidle.sane io, by rw [hidle.phase_eq]; rfl, .arrive hi, ⟨fn, hfn, hsize⟩, rfl⟩
    exact drive_attains hreg hrunning hcool
  | promotion site reg f =>
    have hi : p.instr? site = some (.promote reg) := ha
    have hf : f.IsFor p site := ⟨fn, hfn, hsize⟩
    have hmeets := onPromotion_meets (hidle.deciding io) (fun _ => rfl) hbudget rfl hf
      (fun _ hr => Instr.promote.inj (Option.some.inj (hr.symm.trans hi)))
    simp only [handle, promote_eq, Work.bind_apply] at hcool ⊢
    cases hdecide : onPromotion site reg f ⟨e, s, io⟩ with
    | starved =>
      rw [hdecide] at hmeets
      exact hmeets.elim
    | failed x d =>
      rw [hdecide] at hmeets hcool
      exact absurd (hmeets.overheated (Program.isSome_instr?_after hi List.mem_cons_self))
        (hcool 0 x d rfl)
    | done next d =>
      rw [hdecide] at hmeets hcool
      obtain ⟨f', hd, -, hself⟩ := hmeets
      rw [hself hi] at hd
      exact drive_attains hreg (running_of_decided hd hf) hcool

theorem handle_chain (a : Arrival) (d : Desk) : Outcome.Chain (fun n => a.handle n d) := by
  intro n
  cases a with
  | mergePoint loc f => exact drive_below true (Nat.le_succ n) (Nat.le_succ n) (.arrive loc f) d
  | promotion site reg f =>
    exact Work.bind_below (.refl _) (drive_below true (Nat.le_succ n) (Nat.le_succ n))

/-- The heat is as tame under every allowance as under one that is enough. -/
theorem tame_of_handle {a : Arrival} {d : Desk} {n : Nat}
    (h : (a.handle n d).state?.any (fun d' => decide d'.engine.heat.Tame) = true) (fuel : Nat)
    (d' : Desk) (hd' : (a.handle fuel d).state? = some d') : d'.engine.heat.Tame := by
  obtain ⟨d'', hd'', htame⟩ := (Option.any_eq_true _ _).mp h
  rw [(a.handle_chain d).state?_unique hd' hd'']
  exact of_decide_eq_true htame

-- ============================================================================
-- Reports for one site
-- ============================================================================

/-- Promotes its first register, and prints and returns its second. -/
def echo : Function :=
  { name := "echo", registers := 2, code := #[.promote 0, .print 1, .ret 1] }

/-- The function as a program. -/
def echoProgram : Program :=
  { functions := #[echo], entry := 0, facts := .ofFunctions #[echo], faultless := by decide,
    facts_eq := rfl }

/-- A new engine for it that compiles at once. -/
def echoEngine : Engine := .ofValid echoProgram { promotionThreshold := 1 } rfl

/-- A frame of two integers. -/
def echoFrame (a b : Int64) : Frame := ⟨[⟨.int a, false⟩, ⟨.int b, false⟩]⟩

/-- A report for the site, in a register. -/
def echoArrival (reg : Reg) (a b : Int64) : Arrival := .promotion ⟨0, 0⟩ reg (echoFrame a b)

/-- The desk after such a report was handled. -/
def echoDesk (reg : Reg) (a b : Int64) : Option Desk :=
  match (Call.arrival (echoArrival reg a b)).make 9 (.ofEngine echoEngine []) with
  | .done _ d => some d
  | _ => none

theorem echo_isFor (reg : Reg) (a b : Int64) :
    (echoArrival reg a b).frame.IsFor echoProgram (echoArrival reg a b).loc := ⟨echo, rfl, rfl⟩

theorem echo_history {ok : Call → Prop} {reg : Reg} {a b : Int64} {d : Desk}
    (hok : ok (.arrival (echoArrival reg a b))) (hd : echoDesk reg a b = some d) :
    History echoProgram echoEngine.policy ok d.engine d.store := by
  unfold echoDesk at hd
  split at hd
  · next d' hmake =>
    cases hd
    exact .call (.new (Engine.isNew_ofValid rfl)) hok hmake
  · cases hd

/-- After a report with the right register, a step runs the unit that was made
then, for another value of the second register. -/
theorem attains_resumes_echo :
    ∃ e s, History echoProgram echoEngine.policy
        (fun c => c.FramesFit echoProgram ∧ c.NamesSites echoProgram) e s ∧
      e.stats.unitsCompiled = 1 ∧
      Outcome.Attains
        (fun fuel => ((echoArrival 0 7 9).handle fuel ⟨e, s, {}⟩).mapState Desk.io)
        ((echoEngine.policy.machine echoProgram).resumes ⟨⟨0, 1⟩, echoFrame 7 9, {}⟩) := by
  have hrun : (echoDesk 0 7 3).any (fun d => d.engine.stats.unitsCompiled = 1 ∧
      ((echoArrival 0 7 9).handle 9 ⟨d.engine, d.store, {}⟩).state?.any
        (fun d' => decide d'.engine.heat.Tame) = true) = true := by decide +kernel
  obtain ⟨d, hd, hrun⟩ := (Option.any_eq_true _ _).mp hrun
  obtain ⟨hunits, htame⟩ := of_decide_eq_true hrun
  have hsite : (echoArrival 0 7 3).NamesSite echoProgram := fun _ hr => by cases hr; rfl
  have hhistory : History echoProgram echoEngine.policy
      (fun c => c.FramesFit echoProgram ∧ c.NamesSites echoProgram) d.engine d.store :=
    echo_history ⟨echo_isFor 0 7 3, hsite⟩ hd
  exact ⟨d.engine, d.store, hhistory, hunits,
    attains_resumes hhistory (by decide) (a := echoArrival 0 7 9) rfl (echo_isFor 0 7 9) {}
      (tame_of_handle htame)⟩

/-- After a report with the other register it is different: a step gives back the
value that was reported then. -/
theorem attains_resumes_fails :
    ∃ e s, History echoProgram echoEngine.policy (Call.FramesFit echoProgram) e s ∧
      (echoArrival 0 7 9).IsAt echoProgram ∧
      (echoArrival 0 7 9).frame.IsFor echoProgram (echoArrival 0 7 9).loc ∧
      (∀ fuel d, ((echoArrival 0 7 9).handle fuel ⟨e, s, {}⟩).state? = some d →
        d.engine.heat.Tame) ∧
      ¬ Outcome.Attains
        (fun fuel => ((echoArrival 0 7 9).handle fuel ⟨e, s, {}⟩).mapState Desk.io)
        ((echoEngine.policy.machine echoProgram).resumes ⟨⟨0, 1⟩, echoFrame 7 9, {}⟩) := by
  have hrun : (echoDesk 1 5 7).any (fun d =>
      (((echoArrival 0 7 9).handle 9 ⟨d.engine, d.store, {}⟩).mapState Desk.io).returned.result? =
          some (.int 7) ∧
        ((echoArrival 0 7 9).handle 9 ⟨d.engine, d.store, {}⟩).state?.any
          (fun d' => decide d'.engine.heat.Tame) = true) = true := by decide +kernel
  obtain ⟨d, hd, hrun⟩ := (Option.any_eq_true _ _).mp hrun
  obtain ⟨hseven, htame⟩ := of_decide_eq_true hrun
  refine ⟨d.engine, d.store, echo_history (echo_isFor 1 5 7) hd, rfl, echo_isFor 0 7 9,
    tame_of_handle htame, fun hattains => ?_⟩
  have hnine : (((echoEngine.policy.machine echoProgram).resume 9 ⟨0, 1⟩ (echoFrame 7 9)
      {}).mapState Track.io).returned.result? = some (.int 9) := by decide +kernel
  have hends : (echoEngine.policy.machine echoProgram).resume 9 ⟨0, 1⟩ (echoFrame 7 9) {} ≠
      .starved := by
    intro hs
    rw [hs] at hnine
    cases hnine
  have hstep : ((echoArrival 0 7 9).handle 9 ⟨d.engine, d.store, {}⟩).mapState Desk.io ≠
      .starved := by
    intro hs
    rw [hs] at hseven
    cases hseven
  -- a step and a segment that are the same would return the same
  have hsame : ((echoArrival 0 7 9).handle 9 ⟨d.engine, d.store, {}⟩).mapState Desk.io =
      (echoEngine.policy.machine echoProgram).resumes ⟨⟨0, 1⟩, echoFrame 7 9, {}⟩ :=
    (hattains.1 9).eq_of_ne hstep
  rw [hsame, Machine.resumes_eq_of_resume (s := ⟨⟨0, 1⟩, echoFrame 7 9, {}⟩) hends, hnine] at hseven
  exact absurd hseven (by decide)

end Arrival

end HotPath
