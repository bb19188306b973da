/-
  HotPath.Proofs.Engine.Drive

  Engines that take turn after turn. A drive that answers has concluded as the
  interpreter does (`Engine.drive_meets`), and where the interpreter comes to its
  end, the number of turns is bounded: each of them takes the interpreter on or
  goes to a smaller rank (`Engine.Running.exists_drive`). Together: as its
  allowance grows, a drive attains what the interpreter eventually gives
  (`Engine.drive_attains`).
-/
import HotPath.Proofs.Engine.Turn

namespace HotPath

-- ============================================================================
-- Larger allowances
-- ============================================================================

/-- Computations on growing allowances come to an outcome: none of their answers
is another one, and if it is an answer, some allowance is enough. -/
def Outcome.Attains {σ α : Type} (x : Nat → Outcome σ α) (o : Outcome σ α) : Prop :=
  (∀ n, (x n).Below o) ∧ (o ≠ .starved → ∃ n, x n ≠ .starved)

theorem Work.bind_below {α β : Type} {w w' : Work α} {next next' : α → Work β} {d : Desk}
    (hw : (w d).Below (w' d)) (hn : ∀ a d', (next a d').Below (next' a d')) :
    ((w >>= next) d).Below ((w' >>= next') d) := by
  rw [bind_apply, bind_apply]
  rcases hw with hw | hw
  · rw [hw]
    exact Or.inl rfl
  · rw [hw]
    cases w' d with
    | done a d' => exact hn a d'
    | failed e d' => exact .refl _
    | starved => exact .refl _

theorem Trace.run_below (t : Trace) (m : Machine) (n : Nat) (f : Frame) (io : Console) :
    (t.run m n f io).Below (t.run m (n + 1) f io) := by
  unfold run
  split
  · rcases Op.runAll_below (m.call_below n 1) (t.entrySlots f) io t.ops with h | h
    · rw [h]
      exact Or.inl rfl
    · rw [h]
      exact .refl _
  · exact .refl _

namespace Engine

variable {single : Bool}

theorem interpret_below (n : Nat) (loc : Location) (f : Frame) (d : Desk) :
    (interpret n single loc f d).Below (interpret (n + 1) single loc f d) := by
  unfold interpret Machine.segment
  rcases d.engine.interpreter.resume_below n loc f d.profile.io with h | h
  · rw [h]
    exact Or.inl rfl
  · rw [h]
    exact .refl _

theorem runUnit_below (n : Nat) (u : CodeUnit) (f : Frame) (d : Desk) :
    (runUnit n u f d).Below (runUnit (n + 1) u f d) := by
  unfold runUnit CodeUnit.run
  rcases u.trace.run_below d.engine.unitMachine n f d.io with h | h
  · rw [h]
    exact Or.inl rfl
  · rw [h]
    exact .refl _

theorem turn_chain (single : Bool) (next : Next) (d : Desk) :
    Outcome.Chain (fun n => turn n single next d) := by
  intro n
  cases next with
  | arrive loc f => exact .refl _
  | finish e => exact .refl _
  | interpret loc f =>
    exact Work.bind_below (.refl _) (fun _ _ => Work.bind_below (.refl _)
      (fun _ d' => interpret_below n loc f d'))
  | fallBack loc f =>
    exact Work.bind_below (.refl _) (fun _ _ => Work.bind_below (.refl _)
      (fun _ d' => interpret_below n loc f d'))
  | execute u f =>
    exact Work.bind_below (.refl _) (fun _ _ => Work.bind_below (.refl _)
      (fun _ d' => Work.bind_below (runUnit_below n u f d') (fun _ _ => .refl _)))

/-- Control that is not finished takes a turn. -/
theorem drive_succ {next : Next} (h : 0 < next.rank) (fuel n : Nat) :
    drive fuel single (n + 1) next = (turn fuel single next >>= drive fuel single n) := by
  cases next with
  | finish e => exact absurd h (Nat.lt_irrefl 0)
  | arrive | interpret | fallBack | execute => rfl

theorem drive_below (single : Bool) {fuel fuel' n n' : Nat} (hfuel : fuel ≤ fuel')
    (hn : n ≤ n') (next : Next) (d : Desk) :
    (drive fuel single n next d).Below (drive fuel' single n' next d) := by
  induction n generalizing n' next d with
  | zero => exact .starved _
  | succ n ih =>
    obtain ⟨k, rfl⟩ := Nat.exists_eq_add_of_le' hn
    rcases Nat.eq_zero_or_pos next.rank with hr | hr
    · cases next with
      | finish e => exact .refl _
      | _ => cases hr
    · rw [drive_succ hr, show k + (n + 1) = (k + n) + 1 from rfl, drive_succ hr]
      exact Work.bind_below ((turn_chain single next d).below hfuel)
        (fun next' d' => ih (Nat.le_add_left n k) next' d')

-- ============================================================================
-- Drives
-- ============================================================================

variable {p : Program} {pol : Policy} {allowed : Bool → Prop} {d : Desk} {s : Spot} {next : Next}

/-- What a drive leaves when it is done. -/
structure Driven (p : Program) (pol : Policy) (allowed : Bool → Prop) (single : Bool) (s : Spot)
    (e : Exit) (d' : Desk) : Prop where
  sane : d'.Sane p pol allowed
  phase_eq : d'.engine.phase = .interpreting
  concludes : (pol.machine p).Concludes (pol.machine p).callee ((pol.machine p).stopsIf single) s
    (.done e d'.io)

/-- A drive that answers has concluded as the interpreter does. -/
theorem drive_meets (hreg : Regime pol allowed single)
    (h : Running p pol allowed single d next s) (fuel n : Nat) :
    (drive fuel single n next d).Meets (Driven p pol allowed single s)
      (Fails p pol allowed single s) True := by
  induction n generalizing next d s with
  | zero => trivial
  | succ n ih =>
    rcases Nat.eq_zero_or_pos next.rank with hr | hr
    · obtain ⟨hsane, hready, hstands, -, hio⟩ := h
      have hd : d.Deciding p pol allowed d.engine.phase d := ⟨hsane, rfl, rfl⟩
      cases hstands with
      | arrive => cases hr
      | resumes hres => exact absurd hr (Nat.ne_of_gt hres.rank_pos.1)
      | @finish e io hstops =>
        refine Work.meets_bind (hd.enter hready e.loc) (fun _ d' h' => ?_)
        have hio : io = d'.io := hio.trans h'.io_eq.symm
        exact ⟨h'.toSane, h'.phase_eq, _, .refl, hio ▸ hstops⟩
    · rw [drive_succ hr]
      refine Work.meets_bind ((turn_meets hreg h hr fuel).imp (fun _ _ => id) (fun _ _ => id)
        (fun _ => trivial)) ?_
      rintro next' d' ⟨s', hrunning, hadv⟩
      refine (ih hrunning).imp ?_ ?_ id
      · exact fun e d'' hd => ⟨hd.sane, hd.phase_eq, hadv.reaches.concludes hd.concludes⟩
      · exact fun e d'' hf => ⟨hf.sound, hf.cause.imp_left hadv.reaches.concludes⟩

/-- Where the interpreter comes to its end in `k` steps, so many turns are enough. -/
theorem Running.exists_drive (hreg : Regime pol allowed single) {k : Nat}
    (h : Running p pol allowed single d next s)
    (hk : (pol.machine p).walkFrom k ((pol.machine p).stopsIf single) s ≠ .starved) :
    ∃ fuel, drive fuel single (4 * k + next.rank + 1) next d ≠ .starved := by
  -- on how far the interpreter is from its end, and then on the rank
  induction hμ : 4 * k + next.rank using Nat.strongRecOn generalizing k next d s with
  | ind μ ih =>
    rcases Nat.eq_zero_or_pos next.rank with hr | hr
    · cases next with
      | finish e =>
        have hready : d.engine.phase.canTurnInto .interpreting = true := h.ready
        refine ⟨0, ?_⟩
        show ((Work.enter .interpreting e.loc >>= fun _ => pure e) d) ≠ _
        rw [Work.bind_apply, Work.enter, if_pos hready]
        exact nofun
      | _ => cases hr
    · obtain ⟨fuel, hfuel⟩ := h.exists_turn hreg hr hk
      have hmeets := turn_meets hreg h hr fuel
      cases ht : turn fuel single next d with
      | starved => exact absurd ht hfuel
      | failed e d' =>
        refine ⟨fuel, ?_⟩
        rw [drive_succ hr, Work.bind_apply, ht]
        exact nofun
      | done next' d' =>
        rw [ht] at hmeets
        obtain ⟨s', hrunning, hadv⟩ := hmeets
        have hsmaller : ∃ k', 4 * k' + next'.rank < μ ∧
            (pol.machine p).walkFrom k' ((pol.machine p).stopsIf single) s' ≠ .starved := by
          rcases hadv with hpass | ⟨hreach, hrank⟩
          · obtain ⟨k', hlt, hk'⟩ := hpass.within hk
            have := next'.rank_le
            exact ⟨k', by omega, hk'⟩
          · exact ⟨k, by omega, hreach.within hk⟩
        obtain ⟨k', hlt, hk'⟩ := hsmaller
        obtain ⟨fuel', hfuel'⟩ := ih _ hlt hrunning hk' rfl
        refine ⟨max fuel fuel', ?_⟩
        have hturn := (turn_chain single next d).below (Nat.le_max_left fuel fuel')
        rw [drive_succ hr, Work.bind_apply, ← hturn.eq_of_ne hfuel, ht]
        have hdrive := drive_below single (Nat.le_max_right fuel fuel')
          (Nat.succ_le_of_lt hlt) next' d'
        show drive (max fuel fuel') single μ next' d' ≠ .starved
        rw [← hdrive.eq_of_ne hfuel']
        exact hfuel'

/-- As its allowance grows, a drive attains what the interpreter eventually gives,
unless the heat grows too large. -/
theorem drive_attains (hreg : Regime pol allowed single)
    (h : Running p pol allowed single d next s)
    (hcool : ∀ n e d', drive n single n next d = .failed e d' → ¬ d'.Overheated pol) :
    Outcome.Attains (fun n => (drive n single n next d).mapState Desk.io)
      ((pol.machine p).final ((pol.machine p).stopsIf single) s) := by
  constructor
  · intro n
    have hmeets := drive_meets hreg h n n
    show ((drive n single n next d).mapState Desk.io).Below _
    cases hr : drive n single n next d with
    | starved => exact .starved _
    | done e d' =>
      rw [hr] at hmeets
      rw [hmeets.concludes.final_eq]
      exact .refl _
    | failed e d' =>
      rw [hr] at hmeets
      rcases hmeets.cause with hc | hhot
      · rw [hc.final_eq]
        exact .refl _
      · exact absurd hhot (hcool n e d' hr)
  · intro hfinal
    obtain ⟨k, hk⟩ := Outcome.exists_eq_eventual
      ((pol.machine p).walkFrom_chain ((pol.machine p).stopsIf single) s)
    have hwalk : (pol.machine p).walkFrom k ((pol.machine p).stopsIf single) s ≠ .starved := by
      rw [hk k (Nat.le_refl k)]
      exact hfinal
    obtain ⟨fuel, hfuel⟩ := h.exists_drive hreg hwalk
    refine ⟨max fuel (4 * k + next.rank + 1), fun hstarved => ?_⟩
    have hbelow := drive_below single (Nat.le_max_left fuel (4 * k + next.rank + 1))
      (Nat.le_max_right fuel (4 * k + next.rank + 1)) next d
    exact hfuel (hbelow.eq_starved (Outcome.mapState_eq_starved.mp hstarved))

end Engine

end HotPath
