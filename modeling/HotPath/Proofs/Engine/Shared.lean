/-
  HotPath.Proofs.Engine.Shared

  Engines that share a store. Any number of engines run one program, each with a
  policy and an input of its own, and take turns in any order; whatever one of
  them installs, the others may run. `Shop.sharing_is_sound` says that each of
  them ends as it would without any specialization, after a bounded number of
  iterations of its own, and that at every moment each unit is correct for every
  frame that it would be handed out for.

  The invariant (`Shop.Sound`) is that the store is sound, for the rules of all
  engines together, and that each engine is on the path of its own interpreter
  (`Party.OnPath`). An engine that takes an iteration keeps both; it can do the
  others no harm, since all they ask of the store is that it is sound.
-/
import HotPath.Proofs.Engine.Equivalence
import Mathlib.Logic.Function.Basic

namespace HotPath

-- ============================================================================
-- Iterations
-- ============================================================================

namespace Engine

/-- One iteration of a drive: a turn, or the end. -/
def iteration (fuel : Nat) : Next → Work (Exit ⊕ Next)
  | .finish e => do
    Work.enter .interpreting e.loc
    return .inl e
  | next => do
    let next ← turn fuel false next
    return .inr next

/-- A drive repeats iterations until the end. -/
theorem drive_eq_iteration (fuel n : Nat) (next : Next) (d : Desk) :
    drive fuel false (n + 1) next d =
      match iteration fuel next d with
      | .done (.inl e) d' => .done e d'
      | .done (.inr next') d' => drive fuel false n next' d'
      | .failed e d' => .failed e d'
      | .starved => .starved := by
  cases next with
  | finish e =>
    simp only [drive, iteration, Work.bind_apply]
    cases Work.enter .interpreting e.loc d with
    | done _ d' => rfl
    | failed x d' => rfl
    | starved => rfl
  | arrive | interpret | fallBack | execute =>
    simp only [drive, iteration, Work.bind_apply]
    split
    · rfl
    · rfl
    · rfl

variable {p : Program} {pol : Policy} {allowed : Bool → Prop} {d : Desk} {s : Spot} {next : Next}

/-- What an iteration leaves. -/
def Iterated (p : Program) (pol : Policy) (allowed : Bool → Prop) (next : Next) (s : Spot) :
    Exit ⊕ Next → Desk → Prop
  | .inl e, d' => Driven p pol allowed false s e d'
  | .inr next', d' => Turned p pol allowed false next s next' d'

/-- An iteration keeps up with the interpreter. -/
theorem iteration_meets (hreg : Regime pol allowed false)
    (h : Running p pol allowed false d next s) (fuel : Nat) :
    (iteration fuel next d).Meets (Iterated p pol allowed next s)
      (Fails p pol allowed false s) (Starves p pol fuel s next) := by
  have hturn : 0 < next.rank →
      ((do
        let next ← turn fuel false next
        return .inr next : Work (Exit ⊕ Next)) d).Meets (Iterated p pol allowed next s)
        (Fails p pol allowed false s) (Starves p pol fuel s next) :=
    fun hr => Work.meets_bind (turn_meets hreg h hr fuel) (fun _ _ => id)
  cases next with
  | arrive | interpret | fallBack | execute => exact hturn (Nat.succ_pos _)
  | finish e =>
    have hd : d.Deciding p pol allowed d.engine.phase d := ⟨h.sane, rfl, rfl⟩
    refine Work.meets_bind (hd.enter h.ready e.loc) (fun _ d' hd' => ?_)
    have hio := h.io_eq.trans hd'.io_eq.symm
    cases h.stands with
    | resumes hres => cases hres
    | finish hstops => exact ⟨hd'.toSane, hd'.phase_eq, _, .refl, hio ▸ hstops⟩

/-- Where the interpreter comes to its end, some allowance is enough for an
iteration. -/
theorem Running.exists_iteration (hreg : Regime pol allowed false)
    (h : Running p pol allowed false d next s) {k : Nat}
    (hk : (pol.machine p).walkFrom k ((pol.machine p).stopsIf false) s ≠ .starved) :
    ∃ fuel, iteration fuel next d ≠ .starved := by
  rcases Nat.eq_zero_or_pos next.rank with hr | hr
  · refine ⟨0, fun hstarved => ?_⟩
    have hmeets := iteration_meets hreg h 0
    rw [hstarved] at hmeets
    cases next with
    | finish e => exact hmeets
    | _ => cases hr
  · obtain ⟨fuel, hfuel⟩ := h.exists_turn hreg hr hk
    refine ⟨fuel, fun hstarved => hfuel ?_⟩
    cases next with
    | finish e => cases hr
    | arrive | interpret | fallBack | execute =>
      simp only [iteration, Work.bind_apply] at hstarved
      split at hstarved
      · cases hstarved
      · cases hstarved
      · assumption

/-- Another sound store does a running engine no harm. -/
theorem Running.withStore {single : Bool} (h : Running p pol allowed single d next s)
    {store : UnitStore} (hs : store.Sound p allowed) :
    Running p pol allowed single { d with store } next s :=
  ⟨⟨h.sane.program_eq, h.sane.policy_eq, h.sane.capabilities_eq, hs⟩, h.ready, h.stands, h.isFor,
    h.io_eq⟩

end Engine

-- ============================================================================
-- Parties
-- ============================================================================

/-- How far an engine is with a run of its program. -/
inductive Stage where
  | busy (next : Next)
  | ended (result : Except Fault Value)

/-- The run is over. -/
def Stage.hasEnded : Stage → Bool
  | .busy _ => false
  | .ended _ => true

theorem Stage.hasEnded_iff {stage : Stage} : stage.hasEnded = true ↔ ∃ r, stage = .ended r := by
  cases stage with
  | busy next => exact ⟨nofun, nofun⟩
  | ended r => exact ⟨fun _ => ⟨r, rfl⟩, fun _ => rfl⟩

/-- An engine in the middle of a run. -/
structure Party where
  engine : Engine
  io : Console
  stage : Stage

namespace Party

/-- A party that is about to run a program. -/
def start (p : Program) (e : Engine) (input : List Value) : Party :=
  ⟨e, { input }, .busy (.interpret ⟨p.entry, 0⟩ p.entryFrame)⟩

/-- One iteration of a party's run, on a store. There is none if the run has ended
or the allowance runs out. -/
def step? (fuel : Nat) (party : Party) (store : UnitStore) : Option (Party × UnitStore) :=
  match party.stage with
  | .ended _ => none
  | .busy next =>
    match Engine.iteration fuel next ⟨party.engine, store, party.io⟩ with
    | .done (.inl e) d => some (⟨d.engine, d.io, .ended e.result⟩, d.store)
    | .done (.inr next') d => some (⟨d.engine, d.io, .busy next'⟩, d.store)
    | .failed e d => some (⟨d.engine, d.io, .ended (.error e)⟩, d.store)
    | .starved => none

/-- The party is on the path of its interpreter, or has come to its end, after some
number of iterations. If the interpreter ends in `n` steps, there is a bound on
the number. -/
inductive OnPath (p : Program) (pol : Policy) (allowed : Bool → Prop) (input : List Value)
    (store : UnitStore) (count : Nat) : Party → Prop where
  | busy {engine : Engine} {io : Console} {next : Next} {s : Spot}
    (hrun : Engine.Running p pol allowed false ⟨engine, store, io⟩ next s)
    (hreach : (pol.machine p).Reaches (pol.machine p).callee ((pol.machine p).stopsIf false)
      (p.start { input }) s)
    (hbound : ∀ n, (pol.machine p).walkFrom n ((pol.machine p).stopsIf false)
      (p.start { input }) ≠ .starved → ∃ k,
        (pol.machine p).walkFrom k ((pol.machine p).stopsIf false) s ≠ .starved ∧
        count + (4 * k + next.rank + 1) ≤ 4 * n + 2) :
    OnPath p pol allowed input store count ⟨engine, io, .busy next⟩
  | ended {engine : Engine} {io : Console} {result : Except Fault Value}
    (houtcome : (pol.machine p).whole { input } = .ofResult result io ∨
      (pol.enabled = true ∧ ¬ engine.heat.Tame))
    (hbound : ∀ n, (pol.machine p).walkFrom n ((pol.machine p).stopsIf false)
      (p.start { input }) ≠ .starved → count ≤ 4 * n + 2) :
    OnPath p pol allowed input store count ⟨engine, io, .ended result⟩

variable {p : Program} {pol : Policy} {allowed : Bool → Prop} {input : List Value}
  {store store' : UnitStore} {count : Nat} {party party' : Party}

theorem onPath_start {e : Engine} (he : e.IsNew p pol) (hs : store.Sound p allowed) :
    OnPath p pol allowed input store 0 (start p e input) := by
  have hsane : Desk.Sane p pol allowed ⟨e, store, { input }⟩ := by
    have hnew := he.sane allowed 0 { input }
    exact ⟨hnew.program_eq, hnew.policy_eq, hnew.capabilities_eq, hs⟩
  refine .busy (Engine.running_start hsane) .refl (fun n hn => ⟨n, hn, ?_⟩)
  simp only [Next.rank]
  omega

/-- Where the interpreter concludes, so does the whole program. -/
theorem whole_eq {s : Spot} {o : Outcome Console Exit}
    (hreach : (pol.machine p).Reaches (pol.machine p).callee ((pol.machine p).stopsIf false)
      (p.start { input }) s)
    (hc : (pol.machine p).Concludes (pol.machine p).callee ((pol.machine p).stopsIf false) s o) :
    (pol.machine p).whole { input } = o.returned :=
  congrArg Outcome.returned (hreach.concludes hc).final_eq

/-- An iteration keeps a party on its path, and the store sound. -/
theorem OnPath.step (hreg : Engine.Regime pol allowed false) {fuel : Nat}
    (h : OnPath p pol allowed input store count party)
    (hstep : party.step? fuel store = some (party', store')) :
    store'.Sound p allowed ∧ OnPath p pol allowed input store' (count + 1) party' := by
  cases h with
  | ended houtcome hbound => cases hstep
  | @busy engine io next s hrun hreach hbound =>
    have hmeets := Engine.iteration_meets hreg hrun fuel
    -- whatever the iteration comes to, it is within the bound
    have hcount : ∀ n, (pol.machine p).walkFrom n ((pol.machine p).stopsIf false)
        (p.start { input }) ≠ .starved → count + 1 ≤ 4 * n + 2 := by
      intro n hn
      obtain ⟨k, -, hk⟩ := hbound n hn
      omega
    simp only [step?] at hstep
    cases hit : Engine.iteration fuel next ⟨engine, store, io⟩ with
    | starved =>
      rw [hit] at hstep
      cases hstep
    | failed e d =>
      rw [hit] at hstep hmeets
      cases hstep
      refine ⟨hmeets.sound, .ended ?_ hcount⟩
      exact hmeets.cause.imp_left (whole_eq hreach)
    | done x d =>
      rw [hit] at hstep hmeets
      cases x with
      | inl e =>
        cases hstep
        exact ⟨hmeets.sane.sound, .ended (Or.inl (whole_eq hreach hmeets.concludes)) hcount⟩
      | inr next' =>
        cases hstep
        obtain ⟨s', hrun', hadv⟩ := hmeets
        refine ⟨hrun'.sane.sound, .busy hrun' (hreach.trans hadv.reaches) (fun n hn => ?_)⟩
        obtain ⟨k, hk, hle⟩ := hbound n hn
        rcases hadv with hpass | ⟨hreach', hrank⟩
        · obtain ⟨k', hlt, hk'⟩ := hpass.within hk
          have hmax := next'.rank_le
          exact ⟨k', hk', by omega⟩
        · exact ⟨k, hreach'.within hk, by omega⟩

/-- What others do to the store leaves a party on its path. -/
theorem OnPath.withStore (h : OnPath p pol allowed input store count party)
    (hs : store'.Sound p allowed) : OnPath p pol allowed input store' count party := by
  cases h with
  | busy hrun hreach hbound => exact .busy (hrun.withStore hs) hreach hbound
  | ended houtcome hbound => exact .ended houtcome hbound

/-- A party whose interpreter comes to its end can go on until it has. -/
theorem OnPath.exists_step (hreg : Engine.Regime pol allowed false)
    (h : OnPath p pol allowed input store count party) {n : Nat}
    (hn : (pol.machine p).walkFrom n ((pol.machine p).stopsIf false) (p.start { input }) ≠ .starved)
    {next : Next} (hbusy : party.stage = .busy next) :
    ∃ fuel, (party.step? fuel store).isSome = true := by
  cases h with
  | ended houtcome hbound => cases hbusy
  | @busy engine io next s hrun hreach hbound =>
    obtain ⟨k, hk, -⟩ := hbound n hn
    obtain ⟨fuel, hfuel⟩ := hrun.exists_iteration hreg hk
    refine ⟨fuel, ?_⟩
    simp only [step?]
    cases hit : Engine.iteration fuel next ⟨engine, store, io⟩ with
    | starved => exact absurd hit hfuel
    | failed e d => rfl
    | done x d =>
      cases x with
      | inl e => rfl
      | inr next' => rfl

end Party

-- ============================================================================
-- Parties that share a store
-- ============================================================================

/-- Parties and the store that they share. -/
structure Shop (ι : Type) where
  store : UnitStore
  parties : ι → Party

namespace Shop

variable {ι : Type} {pol : ι → Policy}

/-- The rules for changing hands of all parties. -/
def Rule (pol : ι → Policy) (rule : Bool) : Prop := ∃ i, (pol i).loopHeadersOnly = rule

theorem regime (hbudget : ∀ i, (pol i).maxRegionInstrs ≤ 33554432) (i : ι) :
    Engine.Regime (pol i) (Rule pol) false :=
  ⟨hbudget i, ⟨i, rfl⟩, nofun⟩

variable [DecidableEq ι]

/-- All parties are about to run a program, and nothing is installed. -/
def opening (p : Program) (threshold : Nat) (e : ι → Engine) (input : ι → List Value) : Shop ι :=
  ⟨.ofThreshold threshold, fun i => .start p (e i) (input i)⟩

/-- One of the parties takes an iteration. -/
inductive Step (i : ι) (w : Shop ι) : Shop ι → Prop where
  | mk {fuel : Nat} {party : Party} {store : UnitStore}
    (h : (w.parties i).step? fuel w.store = some (party, store)) :
    Step i w ⟨store, Function.update w.parties i party⟩

/-- Parties take iterations in some order; the list says who, the last one first. -/
inductive Runs (w : Shop ι) : List ι → Shop ι → Prop where
  | nil : Runs w [] w
  | cons {i : ι} {is : List ι} {w' w'' : Shop ι} (h : Runs w is w') (hs : Step i w' w'') :
    Runs w (i :: is) w''

/-- The store is sound and every party is on its path. -/
structure Sound (p : Program) (pol : ι → Policy) (input : ι → List Value) (is : List ι)
    (w : Shop ι) : Prop where
  store : w.store.Sound p (Rule pol)
  parties : ∀ i, (w.parties i).OnPath p (pol i) (Rule pol) (input i) w.store (is.count i)

variable {p : Program} {e e₀ : ι → Engine} {input : ι → List Value} {is : List ι} {w w' : Shop ι}

theorem sound_opening (he : ∀ i, (e i).IsNew p (pol i)) (threshold : Nat) :
    Sound p pol input [] (opening p threshold e input) := by
  have hstore := UnitStore.sound_ofThreshold p (Rule pol) threshold
  exact ⟨hstore, fun i => Party.onPath_start (he i) hstore⟩

/-- An iteration of one party keeps all of them on their paths. -/
theorem Sound.step (hbudget : ∀ i, (pol i).maxRegionInstrs ≤ 33554432) {i : ι}
    (h : Sound p pol input is w) (hs : Step i w w') : Sound p pol input (i :: is) w' := by
  cases hs with
  | @mk fuel party store hstep =>
    obtain ⟨hstore, hparty⟩ := (h.parties i).step (regime hbudget i) hstep
    refine ⟨hstore, fun j => ?_⟩
    show (Function.update w.parties i party j).OnPath p (pol j) (Rule pol) (input j) store _
    by_cases hj : j = i
    · subst hj
      rw [Function.update_self, List.count_cons_self]
      exact hparty
    · rw [Function.update_of_ne hj, List.count_cons_of_ne (Ne.symm hj)]
      exact (h.parties j).withStore hstore

theorem Runs.sound (he : ∀ i, (e i).IsNew p (pol i))
    (hbudget : ∀ i, (pol i).maxRegionInstrs ≤ 33554432) {threshold : Nat}
    (h : Runs (opening p threshold e input) is w) : Sound p pol input is w := by
  induction h with
  | nil => exact sound_opening he threshold
  | cons _ hs ih => exact ih.step hbudget hs

end Shop

/-- A unit is correct for a frame at an address, by a rule for changing hands: on
every machine, its answers tell what resuming the interpreter comes to, and if it
never answers, resuming never ends. -/
def CodeUnit.IsCorrect (p : Program) (rule : Bool) (u : CodeUnit) (loc : Location) (f : Frame) :
    Prop :=
  ∀ m : Machine, m.program = p → m.capabilities = .all → ∀ io,
    (∀ fuel, (m.withHeaders rule).Refines ⟨loc, f, io⟩ (u.run m fuel f io)) ∧
      ((∀ fuel, u.run m fuel f io = .starved) →
        (m.withHeaders rule).resumes ⟨loc, f, io⟩ = .starved)

theorem CodeUnit.Faithful.isCorrect {p : Program} {rule : Bool} {u : CodeUnit} {loc : Location}
    {f : Frame} (h : u.Faithful p rule loc f f) (hf : f.IsFor p loc) :
    u.IsCorrect p rule loc f := by
  rintro m rfl hall io
  obtain ⟨fn, hfn, hsize⟩ := hf
  have hfollows := h.follows hall
  refine ⟨fun fuel => ?_, fun hnever => hfollows.resumes_starved hfn hsize (fun fuel => ?_)⟩
  · have hrefines := hfollows.refines hfn hsize fuel io
    rw [Trace.run_withHeaders] at hrefines
    exact hrefines
  · rw [Trace.run_withHeaders]
    exact hnever fuel

/-- Every unit that a store hands out for a frame is correct for it, by a rule that
was used. -/
structure UnitStore.Correct (p : Program) (allowed : Bool → Prop) (s : UnitStore) : Prop where
  mergePoint : ∀ f loc u, f.IsFor p loc → s.lookup (.ofFrame loc (p.greens loc) f) = some u →
    ∃ rule, allowed rule ∧ u.IsCorrect p rule loc.after f
  promotion : ∀ f site reg u, f.IsFor p site → p.instr? site = some (.promote reg) →
    s.lookupPromotion site (f.get reg) f.mask = some u →
    ∃ rule, allowed rule ∧ u.IsCorrect p rule site.after f
  generic : ∀ f site u, f.IsFor p site → s.genericUnit site = some u → u.accepts f = true →
    ∃ rule, allowed rule ∧ u.IsCorrect p rule site.after f

theorem UnitStore.Sound.correct {p : Program} {allowed : Bool → Prop} {s : UnitStore}
    (h : s.Sound p allowed) : s.Correct p allowed where
  mergePoint := by
    intro f loc u hf hu
    obtain ⟨rule, hrule, hfaith⟩ := h.keys _ _ hu
    exact ⟨rule, hrule, (hfaith f hf rfl).isCorrect hf⟩
  promotion := by
    intro f site reg u hf hi hu
    obtain ⟨rule, hrule, reg', hsite, hserves⟩ := h.lookupPromotion hu
    cases hsite reg hi
    obtain ⟨huntainted, hfaith⟩ := hserves f hf rfl
    rw [Frame.set_get_self huntainted] at hfaith
    exact ⟨rule, hrule, hfaith.isCorrect hf⟩
  generic := by
    intro f site u hf hu haccepts
    obtain ⟨rule, hrule, hfaith⟩ := h.genericUnit hu
    exact ⟨rule, hrule, (hfaith f hf haccepts).isCorrect hf⟩

theorem Machine.exists_walkFrom {m : Machine} {io : Console} (h : m.whole io ≠ .starved) :
    ∃ n, m.walkFrom n (m.stopsIf false) (m.program.start io) ≠ .starved := by
  obtain ⟨n, hn⟩ := Outcome.exists_eq_eventual
    (m.walkFrom_chain (m.stopsIf false) (m.program.start io))
  refine ⟨n, fun hstarved => h ?_⟩
  rw [hn n (Nat.le_refl n)] at hstarved
  exact Outcome.returned_eq_starved.mpr hstarved

namespace Shop

variable {ι : Type} [DecidableEq ι]

/-- Sharing a store is sound, whoever takes iterations in whatever order: a party
that has ended has the result and the effects of its run without specialization;
where that run ends, the party can always go on and ends after a bounded number of
its iterations; and all units are correct for whatever they are handed out for. -/
theorem sharing_is_sound {p : Program} {pol : ι → Policy} {e e₀ : ι → Engine}
    (he : ∀ i, (e i).IsNew p (pol i)) (he₀ : ∀ i, (e₀ i).IsNew p { pol i with enabled := false })
    (hbudget : ∀ i, (pol i).maxRegionInstrs ≤ 33554432) (threshold : Nat)
    (input : ι → List Value) :
    (∀ is w, Runs (opening p threshold e input) is w → ∀ i r, (w.parties i).stage = .ended r →
      (w.parties i).engine.heat.Tame → ∃ fuel t, Trial.run? fuel (e₀ i) (input i) = some t ∧
        t.result = r ∧ t.desk.io = (w.parties i).io) ∧
    (∀ i, (∃ fuel, (Trial.run? fuel (e₀ i) (input i)).isSome = true) →
      ∃ bound, ∀ is w, Runs (opening p threshold e input) is w → is.count i ≤ bound ∧
        ∀ next, (w.parties i).stage = .busy next →
          ∃ fuel, ((w.parties i).step? fuel w.store).isSome = true) ∧
    (∀ is w, Runs (opening p threshold e input) is w → w.store.Correct p (Rule pol)) := by
  have hplain := fun i => Trial.attains (he₀ i) (hbudget i) (input i) (fun hon => nomatch hon)
  refine ⟨fun is w hw i r hended htame => ?_, fun i hends => ?_, fun is w hw =>
    (hw.sound he hbudget).store.correct⟩
  · have hpath := (hw.sound he hbudget).parties i
    generalize w.parties i = party at hpath hended htame
    cases hpath with
    | busy => cases hended
    | @ended engine io result houtcome hbound =>
      cases hended
      rcases houtcome with hwhole | ⟨-, hhot⟩
      · have hne : ((pol i).machine p).whole { input := input i } ≠ .starved := by
          rw [hwhole]
          cases r <;> exact nofun
        obtain ⟨fuel, hfuel⟩ := (Trial.exists_run?_iff (hplain i)).mpr hne
        obtain ⟨t, ht⟩ := Option.isSome_iff_exists.mp hfuel
        have houtcome : t.outcome = .ofResult r io := (Trial.outcome_eq (hplain i) ht).trans hwhole
        obtain ⟨hr, hio⟩ := Outcome.ofResult_inj houtcome
        exact ⟨fuel, t, ht, hr, hio⟩
      · exact absurd htame hhot
  · obtain ⟨n, hn⟩ := Machine.exists_walkFrom ((Trial.exists_run?_iff (hplain i)).mp hends)
    refine ⟨4 * n + 2, fun is w hw => ?_⟩
    have hpath := (hw.sound he hbudget).parties i
    refine ⟨?_, fun next hbusy => hpath.exists_step (regime hbudget i) hn hbusy⟩
    generalize w.parties i = party at hpath
    cases hpath with
    | busy hrun hreach hbound =>
      obtain ⟨k, -, hk⟩ := hbound n hn
      omega
    | ended houtcome hbound => exact hbound n hn

/-- Follows a schedule, as long as parties can take their iterations. -/
def follow (fuel : Nat) : List ι → Shop ι → Option (Shop ι)
  | [], w => some w
  | i :: is, w =>
    match (w.parties i).step? fuel w.store with
    | some (party, store) => follow fuel is ⟨store, Function.update w.parties i party⟩
    | none => none

theorem Runs.follow {fuel : Nat} {w₀ w w' : Shop ι} {is js : List ι} (h : Runs w₀ is w)
    (hf : follow fuel js w = some w') : Runs w₀ (js.reverse ++ is) w' := by
  induction js generalizing w is with
  | nil =>
    cases hf
    exact h
  | cons i js ih =>
    rw [Shop.follow] at hf
    split at hf
    · next party store hstep =>
      rw [List.reverse_cons, List.append_assoc]
      exact ih (h.cons (.mk hstep)) hf
    · cases hf

/-- What the two engines for the loop read. -/
def countdownInput (lazy : Bool) : List Value := if lazy then [.int 8] else [.int 7]

/-- In turn, the two of them run to their ends. The lazy one only runs units that the
other one compiled for its own input, and ends as it would alone. -/
theorem sharing_is_sound_countdown :
    ∃ is w, Runs (opening Trial.countdownProgram 4
        (Trial.countdownEngine true) countdownInput) is w ∧
      (w.parties true).engine.stats.unitsCompiled = 0 ∧
      (w.parties true).engine.stats.compiledRuns = 6 ∧
      ∃ r fuel t, (w.parties true).stage = .ended r ∧
        Trial.run? fuel (Trial.countdownEngine false true) [.int 8] = some t ∧
        t.result = r ∧ t.desk.io = (w.parties true).io := by
  have hrun : (follow 40 (List.replicate 11 [false, true]).flatten (opening Trial.countdownProgram 4
      (Trial.countdownEngine true) countdownInput)).any (fun w =>
        (w.parties true).engine.stats.unitsCompiled = 0 ∧
        (w.parties true).engine.stats.compiledRuns = 6 ∧
        (w.parties true).stage.hasEnded = true ∧ (w.parties true).engine.heat.Tame) = true := by
    decide +kernel
  obtain ⟨w, hw, hrun⟩ := (Option.any_eq_true _ _).mp hrun
  obtain ⟨hunits, hruns, hended, htame⟩ := of_decide_eq_true hrun
  obtain ⟨r, hr⟩ := Stage.hasEnded_iff.mp hended
  have hbudget : ∀ lazy, (Trial.countdownPolicy true lazy).maxRegionInstrs ≤ 33554432 := by decide
  have hsound := sharing_is_sound (Trial.countdownEngine_isNew true)
    (Trial.countdownEngine_isNew false) hbudget 4 countdownInput
  obtain ⟨fuel, t, ht, hresult, hio⟩ := hsound.1 _ w (Runs.nil.follow hw) true r hr htame
  exact ⟨_, w, Runs.nil.follow hw, hunits, hruns, r, fuel, t, hr, ht, hresult, hio⟩

end Shop

end HotPath
