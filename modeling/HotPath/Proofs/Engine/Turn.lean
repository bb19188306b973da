/-
  HotPath.Proofs.Engine.Turn

  One turn of an engine, next to the interpreter. While an engine runs, there is
  always a spot from which the interpreter would go on as the engine does
  (`Engine.Running`): at its own frame, after the merge point it stands at, or at
  the frame that a unit takes its own for. A turn moves that spot along the
  interpreter's path (`Engine.turn_meets`), and a turn that leaves the spot where
  it is goes to a form of control of smaller rank, so turns cannot go on without
  the interpreter going on as well.

  A turn that is starved has run a segment or a unit that is, and where the
  interpreter comes to its end there is an allowance for which it is not
  (`Engine.Running.exists_turn`).
-/
import HotPath.Proofs.Engine.Decide

namespace HotPath

/-- The interpreter for a program under a policy. -/
def Policy.machine (pol : Policy) (p : Program) : Machine :=
  { program := p, maxCallDepth := pol.maxCallDepth, loopHeadersOnly := pol.loopHeadersOnly }

variable {p : Program} {pol : Policy} {allowed : Bool → Prop} {single : Bool} {m : Machine}

namespace Desk.Sane

variable {d : Desk}

theorem unitMachine_eq (h : d.Sane p pol allowed) : d.engine.unitMachine = pol.machine p := by
  unfold Engine.unitMachine Engine.interpreter Policy.machine
  rw [h.program_eq, h.policy_eq]

theorem interpreter_eq (h : d.Sane p pol allowed) : d.engine.interpreter = pol.machine p := by
  unfold Engine.interpreter Policy.machine
  rw [h.program_eq, h.policy_eq, h.capabilities_eq]

end Desk.Sane

-- ============================================================================
-- Runs of segments and units
-- ============================================================================

/-- Where a run has to stop: where execution changes hands if a single step is
asked for, and nowhere otherwise. -/
def Machine.stopsIf (m : Machine) (single : Bool) (loc : Location) : Bool := single && m.stopsAt loc

theorem Machine.stopsAt_of_stopsIf {loc : Location} (h : m.stopsIf single loc = true) :
    m.stopsAt loc = true :=
  (Bool.and_eq_true_iff.mp h).2

theorem Machine.isSome_of_stopsAt {loc : Location} (h : m.stopsAt loc = true) :
    (m.program.instr? loc).isSome = true :=
  Program.isSome_instr?_of_isDispatchPoint h

theorem Machine.stopsIf_eq_false {loc : Location} {i : Instr}
    (hi : m.program.instr? loc = some i) (hm : i.isMergePoint = false) :
    m.stopsIf single loc = false := by
  unfold stopsIf
  rw [stopsAt_eq_false hi hm, Bool.and_false]

/-- The frame stays one for its function. -/
theorem Frame.IsFor.of_reaches {call : Machine.Callee} {stop : Location → Bool} {s s' : Spot}
    (h : s.frame.IsFor p s.loc) (hr : m.Reaches call stop s s') : s'.frame.IsFor p s'.loc := by
  obtain ⟨fn, hfn, hsize⟩ := h
  obtain ⟨hfunc, hframe⟩ := hr.same_frame
  exact ⟨fn, by rw [hfunc]; exact hfn, by rw [hframe]; exact hsize⟩

/-- A segment ends at an exit that suits its place. -/
theorem Machine.resume_meets {s : Spot} (hf : s.frame.IsFor m.program s.loc) (fuel : Nat) :
    (m.resume fuel s.loc s.frame s.io).Meets
      (fun e t => m.Reaches m.callee m.stopsAt s ⟨e.loc, e.frame, t.io⟩ ∧ e.Suits m ∧
        (e.kind = .mergePoint ∨ ∃ v, e.kind = .returned v))
      (fun e t => m.Concludes m.callee m.stopsAt s (.failed e t.io))
      (m.walkFrom fuel m.stopsAt s = .starved) := by
  obtain ⟨fn, hfn, hsize⟩ := hf
  have hwalk := mapState_resume hfn hsize fuel
  cases hr : m.resume fuel s.loc s.frame s.io with
  | starved =>
    rw [hr] at hwalk
    exact hwalk.symm
  | failed e t =>
    rw [hr] at hwalk
    have hwalk : m.walkFrom fuel m.stopsAt s = .failed e t.io := hwalk.symm
    have hne : m.walkFrom fuel m.stopsAt s ≠ .starved := by
      rw [hwalk]
      exact nofun
    have hc := concludes_of_walkFrom (fun _ => isSome_of_stopsAt) hne
    rw [hwalk] at hc
    exact hc
  | done e t =>
    rw [hr] at hwalk
    have hwalk : m.walkFrom fuel m.stopsAt s = .done e t.io := hwalk.symm
    have hne : m.walkFrom fuel m.stopsAt s ≠ .starved := by
      rw [hwalk]
      exact nofun
    have hc := concludes_of_walkFrom (fun _ => isSome_of_stopsAt) hne
    rw [hwalk] at hc
    obtain ⟨s', hreach, hstops⟩ := hc
    generalize ho : Outcome.done e t.io = o at hstops
    cases hstops with
    | arrives hs hi =>
      obtain ⟨rfl, hio⟩ := Outcome.done.inj ho
      refine ⟨?_, hs, Or.inl rfl⟩
      rw [hio]
      exact hreach
    | halts hs hm =>
      subst ho
      obtain ⟨src, hi, rfl, hio⟩ := move_eq_done hm
      refine ⟨?_, ⟨src, hi, rfl⟩, Or.inr ⟨_, rfl⟩⟩
      rw [hio]
      exact hreach

/-- Units call as the machine does, whatever the rule for changing hands. -/
theorem Trace.run_withHeaders (t : Trace) (m : Machine) (rule : Bool) (fuel : Nat) (f : Frame)
    (io : Console) : t.run (m.withHeaders rule) fuel f io = t.run m fuel f io := by
  unfold run
  rw [m.call_withHeaders rule]

namespace CodeUnit.Faithful

variable {u : CodeUnit} {rule : Bool} {loc : Location} {f f' : Frame}

theorem follows (hu : u.Faithful m.program rule loc f f') (hall : m.capabilities = .all) :
    u.trace.Follows (m.withHeaders rule) loc f f' := hu _ rfl hall rfl

/-- A unit leaves at an exit that suits its place, by its own rule for changing
hands. -/
theorem run_meets (hu : u.Faithful m.program rule loc f f') (hall : m.capabilities = .all)
    (fuel : Nat) (io : Console) :
    (u.run m fuel f io).Meets
      (fun e io' => m.Reaches m.callee (m.withHeaders rule).stopsAt ⟨loc, f', io⟩
        ⟨e.loc, e.frame, io'⟩ ∧ e.Suits (m.withHeaders rule))
      (fun e io' => m.Concludes m.callee (m.withHeaders rule).stopsAt ⟨loc, f', io⟩ (.failed e io'))
      (u.run m fuel f io = .starved) := by
  have hrun := (hu.follows hall).of_run fuel io
  rw [Trace.run_withHeaders, m.callee_withHeaders rule] at hrun
  unfold CodeUnit.run
  cases hr : u.trace.run m fuel f io with
  | starved => rfl
  | done e io' =>
    rw [hr] at hrun
    exact hrun
  | failed e io' =>
    rw [hr] at hrun
    exact hrun.of_withHeaders

/-- Where a unit never leaves, the machine never comes to its end. -/
theorem exists_run (hu : u.Faithful m.program rule loc f f') (hall : m.capabilities = .all)
    (io : Console) :
    (∃ n, u.run m n f io ≠ .starved) ∨
      m.Concludes m.callee (m.withHeaders rule).stopsAt ⟨loc, f', io⟩ .starved := by
  rcases (hu.follows hall).exists_run io with ⟨n, hn⟩ | hc
  · rw [Trace.run_withHeaders] at hn
    exact Or.inl ⟨n, hn⟩
  · rw [m.callee_withHeaders rule] at hc
    exact Or.inr hc.of_withHeaders

end CodeUnit.Faithful

-- ============================================================================
-- Running engines
-- ============================================================================

/-- How many turns control may take before the interpreter has to go on. -/
def Next.rank : Next → Nat
  | .finish _ => 0
  | .interpret .. | .fallBack .. => 1
  | .execute .. => 2
  | .arrive .. => 3

theorem Next.rank_le (next : Next) : next.rank ≤ 3 := by
  cases next <;> simp only [rank] <;> decide

/-- Control goes on as the interpreter would from a spot. -/
inductive Next.Stands (m : Machine) (single : Bool) (allowed : Bool → Prop) : Next → Spot → Prop where
  | arrive {loc : Location} {f : Frame} {io : Console} {greens : List Reg}
    (hi : m.program.instr? loc = some (.mergePoint greens)) :
    Stands m single allowed (.arrive loc f) ⟨loc.after, f, io⟩
  | resumes {next : Next} {s : Spot} (h : next.Resumes m.program allowed s.loc s.frame) :
    Stands m single allowed next s
  | finish {e : Exit} {io : Console}
    (h : m.Stops m.callee (m.stopsIf single) ⟨e.loc, e.frame, io⟩ (.done e io)) :
    Stands m single allowed (.finish e) ⟨e.loc, e.frame, io⟩

/-- What goes on between two turns of an engine. -/
structure Engine.Running (p : Program) (pol : Policy) (allowed : Bool → Prop) (single : Bool)
    (d : Desk) (next : Next) (s : Spot) : Prop where
  sane : d.Sane p pol allowed
  ready : d.engine.phase.canTurnInto next.phase = true
  stands : next.Stands (pol.machine p) single allowed s
  isFor : s.frame.IsFor p s.loc
  io_eq : s.io = d.io

/-- From one turn to the next, the interpreter has gone on or the rank is smaller. -/
def Next.Advances (m : Machine) (single : Bool) (next : Next) (s : Spot) (next' : Next)
    (s' : Spot) : Prop :=
  m.Passes m.callee (m.stopsIf single) s s' ∨
    (m.Reaches m.callee (m.stopsIf single) s s' ∧ next'.rank < next.rank)

theorem Next.Advances.reaches {next next' : Next} {s s' : Spot}
    (h : next.Advances m single s next' s') : m.Reaches m.callee (m.stopsIf single) s s' := by
  rcases h with h | h
  · exact h.to_reflTransGen
  · exact h.1

theorem Next.Resumes.rank_pos {next : Next} {loc : Location} {f : Frame}
    (h : next.Resumes p allowed loc f) : 0 < next.rank ∧ next.rank < 3 := by
  cases h with
  | interpret | fallBack | execute =>
    simp only [rank]
    decide

/-- Going past an instruction that does nothing, such as a merge point. -/
theorem Machine.passes_of_perform {stop : Location → Bool} {s : Spot} {loc : Location} {f : Frame}
    {io : Console} {i : Instr} {seen : Option Observation} (hall : m.capabilities = .all)
    (hr : m.Reaches m.callee stop s ⟨loc, f, io⟩) (hi : m.program.instr? loc = some i)
    (hp : m.perform m.callee loc i f io = .done ⟨.next, f, seen⟩ io) (hs : stop loc = false) :
    m.Passes m.callee stop s ⟨loc.after, f, io⟩ := by
  refine Relation.TransGen.tail' hr ⟨hs, ?_⟩
  rw [move_eq_perform (s := ⟨loc, f, io⟩) hall hi, hp]
  rfl

namespace Engine

/-- What is asked of a policy and of the rules for changing hands that units were
made by. Where a single step is asked for, it is only the policy's own. -/
structure Regime (pol : Policy) (allowed : Bool → Prop) (single : Bool) : Prop where
  budget : pol.maxRegionInstrs ≤ 33554432
  own : allowed pol.loopHeadersOnly
  only : single = true → ∀ rule, allowed rule → rule = pol.loopHeadersOnly

theorem Regime.stopsAt_of_stopsIf (hreg : Regime pol allowed single) {rule : Bool}
    (hrule : allowed rule) (loc : Location) (h : (pol.machine p).stopsIf single loc = true) :
    ((pol.machine p).withHeaders rule).stopsAt loc = true := by
  obtain ⟨hs, hstop⟩ := Bool.and_eq_true_iff.mp h
  rw [hreg.only hs rule hrule]
  exact hstop

/-- Control after an exit that ends a segment. -/
theorem running_afterSegment {d : Desk} {s : Spot} {e : Exit} {next : Next} {rule : Bool}
    (hd : d.Sane p pol allowed) (harmed : d.engine.phase.canTurnInto .armed = true)
    (hreg : Regime pol allowed single) (hrule : allowed rule) (hf : s.frame.IsFor p s.loc)
    (hr : (pol.machine p).Reaches (pol.machine p).callee ((pol.machine p).stopsIf single) s
      ⟨e.loc, e.frame, d.io⟩)
    (he : e.Suits ((pol.machine p).withHeaders rule))
    (hkind : e.kind = .mergePoint ∨ ∃ v, e.kind = .returned v) (hrank : 0 < next.rank) :
    ∃ s', Running p pol allowed single d (afterSegment single e) s' ∧
      next.Advances (pol.machine p) single s (afterSegment single e) s' := by
  have hidle : d.engine.phase.canTurnInto .interpreting = true := by
    cases d.engine.phase <;> rfl
  obtain ⟨loc, kind, f⟩ := e
  rcases hkind with rfl | ⟨v, rfl⟩
  · obtain ⟨greens, hi⟩ := Program.exists_mergePoint_of_isDispatchPoint he
    cases single with
    | true =>
      have hstop : (pol.machine p).stopsIf true loc = true := by
        rw [hreg.only rfl rule hrule] at he
        exact he
      refine ⟨⟨loc, f, d.io⟩, ⟨hd, hidle, .finish (.arrives hstop ?_), hf.of_reaches hr, rfl⟩,
        Or.inr ⟨hr, hrank⟩⟩
      exact Machine.isSome_of_stopsAt (Machine.stopsAt_of_stopsIf hstop)
    | false =>
      have hpass := Machine.passes_of_perform rfl hr hi rfl rfl
      exact ⟨⟨loc.after, f, d.io⟩,
        ⟨hd, harmed, .arrive hi, hf.of_reaches hpass.to_reflTransGen, rfl⟩, Or.inl hpass⟩
  · obtain ⟨src, hi, hv⟩ := he
    have hv : f.get src = v := hv
    subst hv
    refine ⟨⟨loc, f, d.io⟩, ⟨hd, hidle, .finish ?_, hf.of_reaches hr, rfl⟩,
      Or.inr ⟨hr, hrank⟩⟩
    exact Machine.stops_of_ret (s := ⟨loc, f, d.io⟩) hi (Machine.stopsIf_eq_false hi rfl)

/-- What a turn leaves when it is done. -/
def Turned (p : Program) (pol : Policy) (allowed : Bool → Prop) (single : Bool) (next : Next)
    (s : Spot) (next' : Next) (d' : Desk) : Prop :=
  ∃ s', Running p pol allowed single d' next' s' ∧
    next.Advances (pol.machine p) single s next' s'

/-- How a turn fails: as the interpreter does, or because the heat has grown too
large. -/
structure Fails (p : Program) (pol : Policy) (allowed : Bool → Prop) (single : Bool) (s : Spot)
    (e : Fault) (d' : Desk) : Prop where
  sound : d'.store.Sound p allowed
  cause : (pol.machine p).Concludes (pol.machine p).callee ((pol.machine p).stopsIf single) s
    (.failed e d'.io) ∨ d'.Overheated pol

variable {d : Desk} {s : Spot} {next : Next} {fuel : Nat}

/-- A turn that interprets. -/
theorem interpret_meets (hd : d.Sane p pol allowed)
    (harmed : d.engine.phase.canTurnInto .armed = true) (hreg : Regime pol allowed single)
    (hf : s.frame.IsFor p s.loc) (hio : s.io = d.io) (hrank : 0 < next.rank) :
    (interpret fuel single s.loc s.frame d).Meets (Turned p pol allowed single next s)
      (Fails p pol allowed single s)
      ((pol.machine p).walkFrom fuel (pol.machine p).stopsAt s = .starved) := by
  have hrun := Machine.resume_meets (m := pol.machine p) hf fuel
  have hsub : ∀ l, (pol.machine p).stopsIf single l = true → (pol.machine p).stopsAt l = true :=
    fun _ => Machine.stopsAt_of_stopsIf
  unfold interpret Machine.segment
  rw [hd.interpreter_eq, show d.profile.io = s.io from hio.symm]
  cases hr : (pol.machine p).resume fuel s.loc s.frame s.io with
  | starved =>
    rw [hr] at hrun
    exact hrun
  | failed e t =>
    rw [hr] at hrun
    have hfails := Machine.Concludes.weaken hsub hrun nofun
    cases e with
    | gap cap loc => exact ⟨(hd.sound.recordSegment _ _).disable, Or.inl hfails⟩
    | _ => exact ⟨hd.sound.recordSegment _ _, Or.inl hfails⟩
  | done e t =>
    rw [hr] at hrun
    obtain ⟨hreach, hsuits, hkind⟩ := hrun
    have hd' : (d.withProfile (d.profile.absorb t)).Sane p pol allowed :=
      ⟨hd.program_eq, hd.policy_eq, hd.capabilities_eq, hd.sound.recordSegment _ _⟩
    exact running_afterSegment hd' harmed hreg hreg.own hf (hreach.weaken hsub) hsuits hkind hrank

/-- After a decision the engine runs on from the address it was made for. -/
theorem running_of_decided {loc : Location} {f : Frame} {d₀ d' : Desk}
    (h : d₀.Decided p pol allowed loc f next d') (hf : f.IsFor p loc) :
    Running p pol allowed single d' next ⟨loc, f, d₀.io⟩ :=
  ⟨h.toSane, h.ready, .resumes h.resumes, hf, h.io_eq.symm⟩

/-- A turn that goes on after a unit left. -/
theorem afterUnit_meets {e : Exit} {rule : Bool} {u : CodeUnit} {f : Frame}
    (hd : d.Deciding p pol allowed .executing d) (hreg : Regime pol allowed single)
    (hrule : allowed rule) (hf : s.frame.IsFor p s.loc)
    (hr : (pol.machine p).Reaches (pol.machine p).callee ((pol.machine p).stopsIf single) s
      ⟨e.loc, e.frame, d.io⟩)
    (he : e.Suits ((pol.machine p).withHeaders rule)) :
    (afterUnit single e d).Meets (Turned p pol allowed single (.execute u f) s)
      (Fails p pol allowed single s) False := by
  have harmed : d.engine.phase.canTurnInto .armed = true := by
    rw [hd.phase_eq]
    rfl
  obtain ⟨loc, kind, f'⟩ := e
  cases kind with
  | mergePoint =>
    exact running_afterSegment hd.toSane harmed hreg hrule hf hr he (Or.inl rfl) (Nat.succ_pos _)
  | returned v =>
    exact running_afterSegment hd.toSane harmed hreg hrule hf hr he (Or.inr ⟨v, rfl⟩)
      (Nat.succ_pos _)
  | fallback =>
    refine ⟨⟨loc, f', d.io⟩, ⟨hd.toSane, ?_, .resumes (.fallBack _ _), hf.of_reaches hr, rfl⟩,
      Or.inr ⟨hr, Nat.lt_succ_self 1⟩⟩
    rw [hd.phase_eq]
    rfl
  | promotion reg =>
    have hi : p.instr? loc = some (.promote reg) := he
    have hpass := Machine.passes_of_perform (m := pol.machine p) rfl hr hi rfl
      (Machine.stopsIf_eq_false hi rfl)
    have hdecide := onPromotion_meets (f := f') hd (fun new => by cases new <;> rfl)
      hreg.budget hreg.own (hf.of_reaches hr)
      (fun _ hr => Instr.promote.inj (Option.some.inj (hr.symm.trans hi)))
    refine hdecide.imp ?_ ?_ id
    · rintro next' d' ⟨f'', hdecided, -, hself⟩
      rw [hself hi] at hdecided
      exact ⟨_, running_of_decided hdecided (hf.of_reaches hr), Or.inl hpass⟩
    · intro e d' hbalks
      have hafter := Program.isSome_instr?_after hi List.mem_cons_self
      exact ⟨hbalks.sound, Or.inr (hbalks.overheated hafter)⟩

/-- A turn that is starved ran a segment or a unit that is. -/
def Starves (p : Program) (pol : Policy) (fuel : Nat) (s : Spot) : Next → Prop
  | .interpret .. | .fallBack .. =>
    (pol.machine p).walkFrom fuel (pol.machine p).stopsAt s = .starved
  | .execute u f => u.run (pol.machine p) fuel f s.io = .starved
  | .arrive .. | .finish _ => False

/-- A turn that runs a unit. -/
theorem execute_meets {u : CodeUnit} {f : Frame} {rule : Bool}
    (hd : d.Deciding p pol allowed .executing d) (hreg : Regime pol allowed single)
    (hrule : allowed rule) (hf : s.frame.IsFor p s.loc) (hio : s.io = d.io)
    (hu : u.Faithful p rule s.loc f s.frame) :
    ((do
      let e ← runUnit fuel u f
      afterUnit single e : Work Next) d).Meets (Turned p pol allowed single (.execute u f) s)
      (Fails p pol allowed single s) (Starves p pol fuel s (.execute u f)) := by
  have hsub := hreg.stopsAt_of_stopsIf (p := p) hrule
  have hrun := CodeUnit.Faithful.run_meets (m := pol.machine p) hu rfl fuel s.io
  rw [Work.bind_apply]
  unfold runUnit
  rw [hd.unitMachine_eq, ← hio]
  cases hr : u.run (pol.machine p) fuel f s.io with
  | starved => exact hr
  | failed e io =>
    rw [hr] at hrun
    exact ⟨hd.sound, Or.inl (Machine.Concludes.weaken hsub hrun nofun)⟩
  | done e io =>
    rw [hr] at hrun
    have hd' : Desk.Deciding p pol allowed { d with io } .executing { d with io } :=
      ⟨⟨hd.program_eq, hd.policy_eq, hd.capabilities_eq, hd.sound⟩, rfl, hd.phase_eq⟩
    exact (afterUnit_meets hd' hreg hrule hf (hrun.1.weaken hsub) hrun.2).imp
      (fun _ _ => id) (fun _ _ => id) False.elim

/-- A turn keeps up with the interpreter. -/
theorem turn_meets (hreg : Regime pol allowed single)
    (h : Running p pol allowed single d next s) (hrank : 0 < next.rank) (fuel : Nat) :
    (turn fuel single next d).Meets (Turned p pol allowed single next s)
      (Fails p pol allowed single s) (Starves p pol fuel s next) := by
  obtain ⟨hsane, hready, hstands, hf, hio⟩ := h
  have hd : d.Deciding p pol allowed d.engine.phase d := ⟨hsane, rfl, rfl⟩
  cases hstands with
  | finish => exact absurd hrank (Nat.lt_irrefl 0)
  | @arrive loc f io greens hi =>
    have hloc : f.IsFor p loc := hf
    cases hio
    refine (onMergePoint_meets hd hready hreg.budget hreg.own hloc).imp ?_ ?_ False.elim
    · intro next' d' hdecided
      exact ⟨_, running_of_decided hdecided hloc, Or.inr ⟨.refl, hdecided.resumes.rank_pos.2⟩⟩
    · intro e d' hbalks
      have hafter := Program.isSome_instr?_after hi List.mem_cons_self
      exact ⟨hbalks.sound, Or.inr (hbalks.overheated hafter)⟩
  | resumes hres =>
    obtain ⟨loc, f, io⟩ := s
    cases hres with
    | interpret =>
      refine Work.meets_bind (hd.enter hready loc) (fun _ d₁ h₁ => ?_)
      refine Work.meets_bind (h₁.tally _) (fun _ d₂ h₂ => ?_)
      exact interpret_meets (s := ⟨loc, f, io⟩) h₂.toSane (h₂.phase_eq ▸ rfl) hreg hf
        (hio.trans h₂.io_eq.symm) hrank
    | fallBack =>
      refine Work.meets_bind (hd.enter hready loc) (fun _ d₁ h₁ => ?_)
      refine Work.meets_bind (h₁.tally _) (fun _ d₂ h₂ => ?_)
      exact interpret_meets (s := ⟨loc, f, io⟩) h₂.toSane (h₂.phase_eq ▸ rfl) hreg hf
        (hio.trans h₂.io_eq.symm) hrank
    | execute hrule hu =>
      refine Work.meets_bind (hd.enter hready _) (fun _ d₁ h₁ => ?_)
      refine Work.meets_bind (h₁.tally _) (fun _ d₂ h₂ => ?_)
      exact execute_meets (s := ⟨loc, f, io⟩) ⟨h₂.toSane, rfl, h₂.phase_eq⟩ hreg hrule hf
        (hio.trans h₂.io_eq.symm) hu

-- ============================================================================
-- Turns that are not starved
-- ============================================================================

/-- Where the interpreter comes to its end, some allowance is enough for a turn. -/
theorem Running.exists_turn (hreg : Regime pol allowed single)
    (h : Running p pol allowed single d next s) (hrank : 0 < next.rank) {n : Nat}
    (hn : (pol.machine p).walkFrom n ((pol.machine p).stopsIf single) s ≠ .starved) :
    ∃ fuel, turn fuel single next d ≠ .starved := by
  have hsome : ∃ fuel, ¬ Starves p pol fuel s next := by
    cases h.stands with
    | finish => exact ⟨0, id⟩
    | arrive => exact ⟨0, id⟩
    | resumes hres =>
      obtain ⟨loc, f, io⟩ := s
      have hwalk := Machine.walkFrom_stopping (fun _ => Machine.isSome_of_stopsAt)
        (fun _ => Machine.stopsAt_of_stopsIf) hn
      cases hres with
      | interpret => exact ⟨n, hwalk⟩
      | fallBack => exact ⟨n, hwalk⟩
      | execute hrule hu =>
        rcases CodeUnit.Faithful.exists_run (m := pol.machine p) hu rfl io with hk | hc
        · exact hk
        · have hc := hc.weaken (hreg.stopsAt_of_stopsIf hrule) nofun
          exact absurd (hc.walkFrom_starved n) hn
  obtain ⟨fuel, hfuel⟩ := hsome
  refine ⟨fuel, fun hstarved => hfuel ?_⟩
  have hmeets := turn_meets hreg h hrank fuel
  rw [hstarved] at hmeets
  exact hmeets

end Engine

end HotPath
