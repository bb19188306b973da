/-
  HotPath.Proofs.Engine.Ledger

  The numbers of an engine add up. Every stretch of execution, be it interpreted or a
  run of a unit, is owed to the start of a run, to an arrival at a merge point, to a
  promotion or to a unit that fell back; every time that an engine turns to compiling
  is counted once, by what came of it; every unit that was compiled has run; and there
  are as many places known to be empty as attempts that found nothing to compile.

  `Engine.Accounts` is what one turn adds to both sides (`Engine.turn_accounts`), and
  `Engine.drive_accounts` sums it up over the turns of a drive. The main result is
  `Engine.stats_are_conserved`.
-/
import HotPath.Proofs.Engine.Books
import HotPath.Proofs.Region.Course

namespace HotPath

/-- What is done, if anything is, meets a condition together with the desk that it leaves. -/
def Outcome.Gives {α : Type} (o : Outcome Desk α) (P : α → Desk → Prop) : Prop :=
  o.Meets P (fun _ _ => True) True

theorem Outcome.Gives.imp {α : Type} {o : Outcome Desk α} {P Q : α → Desk → Prop} (h : o.Gives P)
    (hPQ : ∀ a d, P a d → Q a d) : o.Gives Q :=
  Meets.imp h hPQ (fun _ _ => id) id

theorem Work.gives_bind {α β : Type} {w : Work α} {next : α → Work β} {d : Desk}
    {P : α → Desk → Prop} {Q : β → Desk → Prop} (hw : (w d).Gives P)
    (hn : ∀ a d', P a d' → (next a d').Gives Q) : ((w >>= next) d).Gives Q :=
  Work.meets_bind hw hn

namespace Stats

/-- The stretches of execution: segments that were interpreted, and runs of units. -/
def stretches (s : Stats) : Nat := s.interpretedSegments + s.fallbackSegments + s.compiledRuns

/-- How often execution came to a place where it changes hands. -/
def handovers (s : Stats) : Nat := s.mergePointArrivals + s.promotionExits

/-- The attempts to compile that came to an end. -/
def attempts (s : Stats) : Nat := s.unitsCompiled + s.specializationFallbacks + s.emptyRegions

end Stats

namespace Next

/-- The stretches that are due: one, unless control is at a merge point or finished. -/
def due : Next → Nat
  | .arrive .. | .finish _ => 0
  | .interpret .. | .fallBack .. | .execute .. => 1

/-- The runs of units that are due. -/
def dueRuns : Next → Nat
  | .execute .. => 1
  | .arrive .. | .interpret .. | .fallBack .. | .finish _ => 0

end Next

namespace Engine

/-- One for an engine that is compiling. -/
def compilings (e : Engine) : Nat := if e.phase = .compiling then 1 else 0

/-- The changes into compiling that were recorded. -/
def recorded (e : Engine) : Nat := e.events.toList.countP (fun t => t.new = .compiling)

/-- What is added to both sides of the account until control goes on with `next`, where
`due` stretches and `runs` runs of units were due before and `fallen` units fell back. -/
structure Accounts (due runs fallen : Nat) (e : Engine) (next : Next) (e' : Engine) : Prop where
  policy_eq : e'.policy = e.policy
  stretches : e'.stats.stretches + next.due + e.stats.handovers =
    e.stats.stretches + due + e'.stats.handovers + fallen
  attempts : e'.stats.attempts = e.stats.attempts + e'.compilings
  recorded : e.policy.recordEvents = true → e'.recorded = e.recorded + e'.compilings
  units : e'.stats.unitsCompiled + runs + e.stats.compiledRuns ≤
    e.stats.unitsCompiled + next.dueRuns + e'.stats.compiledRuns
  empty : e'.stats.emptyRegions + e.emptyEntries.size = e.stats.emptyRegions + e'.emptyEntries.size

variable {e e' : Engine} {next : Next} {loc site : Location} {f : Frame} {d : Desk}

-- ============================================================================
-- Phases
-- ============================================================================

theorem compilings_of_ne (h : e.phase ≠ .compiling) : e.compilings = 0 := if_neg h

/-- A change into compiling is recorded, and no other change counts. -/
theorem recorded_turnInto {new : Phase} (h : e.phase ≠ .compiling ∨ new ≠ .compiling)
    (hrecord : e.policy.recordEvents = true) (loc : Location) :
    (e.turnInto new loc).recorded = e.recorded + (e.turnInto new loc).compilings := by
  unfold recorded compilings turnInto
  by_cases hsame : e.phase = new
  · have hnew : new ≠ .compiling := by
      rcases h with h | h
      · exact hsame ▸ h
      · exact h
    simp [hsame, hnew]
  · simp [hrecord, hsame, List.countP_append]

/-- Nothing happens until control goes on. -/
theorem Accounts.still {due fallen : Nat} (hphase : e.phase ≠ .compiling)
    (hdue : next.due = due + fallen) : Accounts due 0 fallen e next e where
  policy_eq := rfl
  stretches := by omega
  attempts := by rw [compilings_of_ne hphase, Nat.add_zero]
  recorded _ := by rw [compilings_of_ne hphase, Nat.add_zero]
  units := by omega
  empty := rfl

/-- What is accounted for from a turn to something else is accounted for from before. -/
theorem Accounts.turned {due runs fallen : Nat} {new : Phase}
    (h : Accounts due runs fallen (e.turnInto new loc) next e') (hnew : new ≠ .compiling) :
    Accounts due runs fallen e next e' where
  policy_eq := h.policy_eq
  stretches := h.stretches
  attempts := h.attempts
  recorded := by
    intro hrecord
    have hturn := recorded_turnInto (Or.inr hnew) hrecord loc
    rw [compilings_of_ne (e := e.turnInto new loc) hnew, Nat.add_zero] at hturn
    rw [h.recorded hrecord, hturn]
  units := h.units
  empty := h.empty

/-- What is accounted for after counting something is accounted for from before, where that
was due. -/
theorem Accounts.tallied {due runs due' runs' fallen : Nat} {stats : Stats}
    (h : Accounts due' runs' fallen { e with stats } next e')
    (hattempts : stats.attempts = e.stats.attempts)
    (hempty : stats.emptyRegions = e.stats.emptyRegions)
    (hdue : stats.stretches + due' + e.stats.handovers =
      e.stats.stretches + due + stats.handovers)
    (hruns : stats.unitsCompiled + runs + e.stats.compiledRuns =
      e.stats.unitsCompiled + runs' + stats.compiledRuns) :
    Accounts due runs fallen e next e' where
  policy_eq := h.policy_eq
  stretches := by
    have := h.stretches
    dsimp only at this
    omega
  attempts := by
    rw [h.attempts, hattempts]
  recorded := h.recorded
  units := by
    have := h.units
    dsimp only at this
    omega
  empty := by
    have := h.empty
    dsimp only at this
    omega

/-- Work after which the account of an engine is in order. -/
def Settles (due runs fallen : Nat) (e : Engine) (o : Outcome Desk Next) : Prop :=
  o.Gives (fun next d => Accounts due runs fallen e next d.engine)

variable {due runs fallen : Nat} {o : Outcome Desk Next}

/-- What was counted for keys is not on the account. -/
theorem Settles.of_heat (heat : Heat) (h : Settles due runs fallen { e with heat } o) :
    Settles due runs fallen e o :=
  Outcome.Gives.imp h (fun _ _ ha =>
    ⟨ha.policy_eq, ha.stretches, ha.attempts, ha.recorded, ha.units, ha.empty⟩)

-- ============================================================================
-- Compiling
-- ============================================================================

/-- What comes of compiling for a place, in the books and the numbers. -/
inductive Attempted (entry : UnitEntry) (e : Engine) : Compiled → Engine → Prop where
  | unit (u : CodeUnit) (committed : Array CodeUnit) :
    Attempted entry e (.unit u) { e with
      stats := { e.stats with unitsCompiled := e.stats.unitsCompiled + 1 }, committed }
  | empty : Attempted entry e .interpret ({ e with
      stats := { e.stats with emptyRegions := e.stats.emptyRegions + 1 } }.noteEmpty entry)
  | gaveUp : Attempted entry e .fallBack { e with
      stats := { e.stats with specializationFallbacks := e.stats.specializationFallbacks + 1 } }

/-- Every attempt that ends is counted: none is lost because walks were found apart. -/
theorem compile_attempted {r : Region} (hr : r.stopAt = none) (entry : UnitEntry) (f : Frame)
    (d : Desk) :
    (compile r entry f d).Gives (fun c d' => Attempted entry d.engine c d'.engine) := by
  have hapart := Region.specialize_neverApart (g := d.guide) hr
  unfold compile
  rw [Work.desk_bind]
  cases hverdict : r.specialize d.guide with
  | ok verdict =>
    cases verdict with
    | committed t => exact Attempted.unit _ _
    | empty => exact Attempted.empty
    | fallback reason => exact Attempted.gaveUp
  | error x =>
    cases x with
    | mergeIncompatible cause => exact absurd hverdict (hapart cause)
    | _ => exact trivial

/-- An engine that turns to compiling has accounted for it when the attempt has ended. -/
theorem Attempted.accounts {entry : UnitEntry} {c : Compiled}
    (h : Attempted entry (e.turnInto .compiling loc) c e') (hphase : e.phase ≠ .compiling)
    (hempty : e.emptyEntries.contains entry = false) (hdue : next.due = 1)
    (hrun : ∀ u, c = .unit u → next.dueRuns = 1) : Accounts 1 0 0 e next e' := by
  have hrecorded : e.policy.recordEvents = true →
      (e.turnInto .compiling loc).recorded = e.recorded + 1 :=
    fun hrecord => recorded_turnInto (Or.inl hphase) hrecord loc
  have hstretches : e.stats.stretches + next.due + e.stats.handovers =
      e.stats.stretches + 1 + e.stats.handovers + 0 := by omega
  cases h with
  | unit u committed =>
    have hrun := hrun u rfl
    exact ⟨rfl, hstretches, by simp +arith [Stats.attempts, compilings, turnInto], hrecorded,
      by simp only [turnInto]; omega, rfl⟩
  | empty =>
    refine ⟨rfl, hstretches, by simp +arith [Stats.attempts, compilings, turnInto, noteEmpty],
      hrecorded, ?_, ?_⟩
    · simp only [turnInto, noteEmpty]
      omega
    · -- the place was not known to be empty
      simp only [turnInto, noteEmpty, KeySet.add, Table.size_insert, hempty]
      simp +arith
  | gaveUp =>
    exact ⟨rfl, hstretches, by simp +arith [Stats.attempts, compilings, turnInto], hrecorded,
      by simp only [turnInto]; omega, rfl⟩

/-- Work that leaves the engine alone, and after which a stretch is due. -/
def Defers (d : Desk) (o : Outcome Desk Next) : Prop :=
  o.Gives (fun next d' => next.due = 1 ∧ d'.engine = d.engine)

theorem Defers.settles (h : Defers d o) (hphase : d.engine.phase ≠ .compiling) :
    Settles 1 0 0 d.engine o := by
  refine Outcome.Gives.imp h (fun next d' hnext => ?_)
  obtain ⟨hdue, hengine⟩ := hnext
  rw [hengine]
  exact .still hphase hdue

theorem defers_interpretAfter (loc : Location) (f : Frame) (d : Desk) :
    Defers d (interpretAfter loc f d) := by
  unfold interpretAfter
  rw [Work.bind_apply]
  cases inWidth loc.next? with
  | ok pc => exact ⟨rfl, rfl⟩
  | error x => exact trivial

theorem defers_fallBackAfter (loc : Location) (f : Frame) (d : Desk) :
    Defers d (fallBackAfter loc f d) := by
  unfold fallBackAfter
  rw [Work.bind_apply]
  cases inWidth loc.next? with
  | ok pc => exact ⟨rfl, rfl⟩
  | error x => exact trivial

theorem enter_gives (new : Phase) (loc : Location) (d : Desk) :
    (Work.enter new loc d).Gives
      (fun _ d' => d' = { d with engine := d.engine.turnInto new loc }) := by
  unfold Work.enter
  split
  · exact rfl
  · exact trivial

/-- Turning to compiling, and going on with what comes of it. -/
theorem settles_compiling {r : Region} (hr : r.stopAt = none) (entry : UnitEntry)
    {go : Compiled → Work Next}
    (hunit : ∀ u d', (go (.unit u) d').Gives
      (fun next d'' => next = .execute u f ∧ d''.engine = d'.engine))
    (hnone : ∀ c d', c.unit? = none → Defers d' (go c d')) (hphase : d.engine.phase ≠ .compiling)
    (hempty : d.engine.emptyEntries.contains entry = false) (loc : Location) :
    Settles 1 0 0 d.engine
      ((compile r entry f >>= go) { d with engine := d.engine.turnInto .compiling loc }) := by
  refine Work.gives_bind (compile_attempted hr entry f _) (fun c d₂ hd₂ => ?_)
  cases hc : c.unit? with
  | none =>
    refine Outcome.Gives.imp (hnone c d₂ hc) (fun next d' hnext => ?_)
    obtain ⟨hdue, hengine⟩ := hnext
    rw [hengine]
    refine hd₂.accounts hphase hempty hdue (fun u hu => ?_)
    rw [hu] at hc
    cases hc
  | some u =>
    cases c with
    | unit u' =>
      refine Outcome.Gives.imp (hunit u' d₂) (fun next d' hnext => ?_)
      obtain ⟨rfl, hengine⟩ := hnext
      rw [hengine]
      exact hd₂.accounts hphase hempty rfl (fun _ _ => rfl)
    | interpret | fallBack => cases hc

-- ============================================================================
-- Decisions
-- ============================================================================

theorem stopAt_of_opens {r : Region} (h : r.Opens f) : r.stopAt = none := by
  obtain ⟨loc, origin, rfl⟩ := h.eq_entering
  rfl

theorem settles_compileMergePoint {k : MergeKey} (hphase : d.engine.phase ≠ .compiling)
    (hempty : d.engine.emptyEntries.contains (.mergePoint k) = false) (loc : Location)
    (f : Frame) : Settles 1 0 0 d.engine (compileMergePoint loc f k d) := by
  refine Work.gives_bind (enter_gives .compiling loc d) (fun _ d₁ hd₁ => ?_)
  subst hd₁
  rw [Work.desk_bind, Work.bind_apply]
  cases hr : Region.atMergePoint loc
      ((d.engine.turnInto .compiling loc).program.greens loc) f with
  | error x => exact trivial
  | ok r =>
    refine settles_compiling (stopAt_of_opens (.mergePoint hr)) _ (fun u d' => ?_)
      (fun c d' hc => ?_) hphase hempty loc
    · exact ⟨rfl, rfl⟩
    · cases c with
      | unit u => cases hc
      | interpret => exact defers_interpretAfter loc f d'
      | fallBack => exact defers_fallBackAfter loc f d'

/-- At an arrival execution changes hands once, and then one stretch is due. -/
theorem settles_onMergePoint (loc : Location) (f : Frame) (d : Desk) :
    Settles 0 0 0 d.engine (onMergePoint loc f d) := by
  by_cases hphase : d.engine.phase = .compiling
  · rw [onMergePoint_refused hphase]
    exact trivial
  have harmed : ∀ {o}, Settles 1 0 0 (d.armed loc).engine o → Settles 0 0 0 d.engine o := by
    intro o ho
    refine Outcome.Gives.imp ho (fun next d' h => ?_)
    refine Accounts.turned (Accounts.tallied h rfl rfl ?_ rfl) (by decide)
    simp only [turnInto, Stats.stretches, Stats.handovers]
    omega
  have hne : (d.armed loc).engine.phase ≠ .compiling := fun h => by cases h
  by_cases hactive : d.isActive = true
  · generalize hk : MergeKey.ofFrame loc (d.engine.program.greens loc) f = k
    cases hu : CodeUnit.fitting? f (d.store.lookup k) with
    | some u =>
      rw [onMergePoint_unit hphase hactive (hk ▸ hu)]
      exact harmed (o := .done _ _) (Accounts.still hne rfl)
    | none =>
      rw [onMergePoint_counted hphase hactive hk.symm hu]
      refine harmed (.of_heat ((d.armed loc).engine.heat.observe (.mergePoint k)).2 ?_)
      split
      · exact (defers_interpretAfter loc f ((d.armed loc).counted _)).settles hne
      · rename_i hhot
        exact settles_compileMergePoint (d := (d.armed loc).counted _) hne
          (Bool.eq_false_iff.mpr (not_or.mp hhot).2) loc f
  · rw [onMergePoint_inactive hphase (Bool.eq_false_iff.mpr hactive)]
    exact harmed ((defers_interpretAfter loc f _).settles hne)

theorem settles_compilePromotion {entry : UnitEntry} {r : Region} (hr : r.stopAt = none)
    (install : CodeUnit → UnitStore → Bool × UnitStore) (hphase : d.engine.phase ≠ .compiling)
    (site : Location) (f : Frame) :
    Settles 1 0 0 d.engine (compilePromotion site f entry r install d) := by
  unfold compilePromotion
  rw [Work.desk_bind]
  split
  · exact (defers_fallBackAfter site f d).settles hphase
  · rename_i hempty
    refine Work.gives_bind (enter_gives .compiling site d) (fun _ d₁ hd₁ => ?_)
    subst hd₁
    refine settles_compiling hr entry (fun u d' => ?_) (fun c d' hc => ?_) hphase
      (Bool.eq_false_iff.mpr hempty) site
    · exact ⟨rfl, rfl⟩
    · cases c with
      | unit u => cases hc
      | interpret => exact defers_fallBackAfter site f d'
      | fallBack => exact defers_fallBackAfter site f d'

/-- So it is at a promotion. -/
theorem settles_onPromotion (hphase : d.engine.phase ≠ .compiling) (site : Location) (reg : Reg)
    (f : Frame) : Settles 0 0 0 d.engine (onPromotion site reg f d) := by
  refine Work.gives_bind (P := fun _ d₁ => d₁ = { d with engine := { d.engine with
    stats := { d.engine.stats with promotionExits := d.engine.stats.promotionExits + 1 } } }) rfl
    (fun _ d₁ hd₁ => ?_)
  have hcounted : ∀ {o}, Settles 1 0 0 d₁.engine o → Settles 0 0 0 d.engine o := by
    intro o ho
    rw [hd₁] at ho
    refine Outcome.Gives.imp ho (fun next d' h => Accounts.tallied h rfl rfl ?_ rfl)
    simp only [Stats.stretches, Stats.handovers]
    omega
  have hphase : d₁.engine.phase ≠ .compiling := by
    rw [hd₁]
    exact hphase
  refine hcounted ?_
  rw [Work.desk_bind]
  split
  · dsimp only
    rw [Work.bind_apply, decidePromotion_eq]
    refine .of_heat (d₁.decided site (f.get reg) f).engine.heat ?_
    cases (d₁.books.decide d₁.engine.policy site (f.get reg) f).1 with
    | cached u => exact Accounts.still hphase rfl
    | fallback => exact (defers_fallBackAfter site f (d₁.decided site (f.get reg) f)).settles hphase
    | specialize =>
      dsimp only
      rw [Work.bind_apply]
      cases hr : Region.atPromotion site reg f with
      | error x => exact trivial
      | ok r =>
        exact settles_compilePromotion (d := d₁.decided site (f.get reg) f)
          (stopAt_of_opens (.promotion hr)) _ hphase site f
    | specializeGeneric =>
      dsimp only
      rw [Work.bind_apply]
      cases inWidth site.next? with
      | error x => exact trivial
      | ok pc =>
        exact settles_compilePromotion (d := d₁.decided site (f.get reg) f)
          (stopAt_of_opens (.generic pc)) _ hphase site f
  · exact (defers_fallBackAfter site f d₁).settles hphase

-- ============================================================================
-- Turns
-- ============================================================================

/-- Whether the next turn is the run of a unit that falls back. -/
def fallsBack (fuel : Nat) (next : Next) (d : Desk) : Bool :=
  match next with
  | .execute u f =>
    (u.run d.engine.unitMachine fuel f d.io).result?.any (fun x => x.kind = .fallback)
  | .arrive .. | .interpret .. | .fallBack .. | .finish _ => false

theorem due_afterSegment (single : Bool) (x : Exit) : (afterSegment single x).due = 0 := by
  unfold afterSegment
  split
  · split
    · rfl
    · rfl
  · rfl

/-- After a segment control is at a merge point, or has finished. -/
theorem settles_interpret (hphase : d.engine.phase ≠ .compiling) (fuel : Nat) (single : Bool)
    (loc : Location) (f : Frame) : Settles 0 0 0 d.engine (interpret fuel single loc f d) := by
  unfold interpret
  cases d.engine.interpreter.segment fuel loc f d.profile with
  | done x profile =>
    refine Settles.of_heat profile.heat (o := .done _ _) ?_
    exact Accounts.still hphase (due_afterSegment single x)
  | failed x profile => cases x <;> exact trivial
  | starved => exact trivial

/-- After a unit has left, control goes on as after a segment, or a promotion is handled,
or the unit falls back. -/
theorem settles_runUnit (hphase : d.engine.phase ≠ .compiling) (fuel : Nat) (single : Bool)
    (u : CodeUnit) (f : Frame) :
    Settles 0 0 (if fallsBack fuel (.execute u f) d then 1 else 0) d.engine
      ((runUnit fuel u f >>= afterUnit single) d) := by
  generalize hfallen : (if fallsBack fuel (.execute u f) d then 1 else 0) = fallen
  rw [Work.bind_apply, runUnit]
  cases hrun : u.run d.engine.unitMachine fuel f d.io with
  | failed x io => exact trivial
  | starved => exact trivial
  | done x io =>
    simp only [fallsBack, hrun, Outcome.result?, Option.any_some, decide_eq_true_eq] at hfallen
    simp only [afterUnit]
    cases hkind : x.kind with
    | promotion reg =>
      rw [hkind, if_neg (fun h => by cases h)] at hfallen
      subst hfallen
      exact settles_onPromotion (d := { d with io }) hphase x.loc reg x.frame
    | fallback =>
      rw [if_pos hkind] at hfallen
      subst hfallen
      exact Accounts.still hphase rfl
    | mergePoint | returned =>
      rw [hkind, if_neg (fun h => by cases h)] at hfallen
      subst hfallen
      exact Accounts.still hphase (due_afterSegment single x)

/-- A stretch of execution that was due is counted before it begins. -/
theorem settles_stretch {phase : Phase} {change : Stats → Stats} {w : Work Next}
    (hphase : phase ≠ .compiling)
    (hother : (change d.engine.stats).attempts = d.engine.stats.attempts ∧
      (change d.engine.stats).emptyRegions = d.engine.stats.emptyRegions ∧
      (change d.engine.stats).unitsCompiled = d.engine.stats.unitsCompiled ∧
      (change d.engine.stats).handovers = d.engine.stats.handovers)
    (hstretch : (change d.engine.stats).stretches = d.engine.stats.stretches + 1)
    (hruns : (change d.engine.stats).compiledRuns = d.engine.stats.compiledRuns + runs)
    (hw : Settles 0 0 fallen
      { d.engine.turnInto phase loc with stats := change d.engine.stats }
      (w { d with engine :=
        { d.engine.turnInto phase loc with stats := change d.engine.stats } })) :
    Settles 1 runs fallen d.engine
      ((do
        Work.enter phase loc
        Work.tally change
        w : Work Next) d) := by
  obtain ⟨hattempts, hempty, hunits, hhandovers⟩ := hother
  refine Work.gives_bind (enter_gives phase loc d) (fun _ d₁ hd₁ => ?_)
  subst hd₁
  refine Outcome.Gives.imp hw (fun next d' h => ?_)
  refine Accounts.turned (Accounts.tallied h hattempts hempty ?_ ?_) hphase
  · simp only [turnInto]
    omega
  · simp only [turnInto]
    omega

/-- What a turn adds to both sides of the account. -/
theorem settles_turn (fuel : Nat) (single : Bool) (h : 0 < next.rank) (d : Desk) :
    Settles next.due next.dueRuns (if fallsBack fuel next d then 1 else 0) d.engine
      (turn fuel single next d) := by
  cases next with
  | finish x => exact absurd h (Nat.lt_irrefl 0)
  | arrive loc f => exact settles_onMergePoint loc f d
  | interpret loc f =>
    refine settles_stretch (by decide) ⟨rfl, rfl, rfl, rfl⟩ ?_ rfl
      (settles_interpret (fun h => by cases h) fuel single loc f)
    simp +arith [Stats.stretches]
  | fallBack loc f =>
    refine settles_stretch (by decide) ⟨rfl, rfl, rfl, rfl⟩ ?_ rfl
      (settles_interpret (fun h => by cases h) fuel single loc f)
    simp +arith [Stats.stretches]
  | execute u f =>
    refine settles_stretch (by decide) ⟨rfl, rfl, rfl, rfl⟩ ?_ rfl
      (settles_runUnit (fun h => by cases h) fuel single u f)
    simp +arith [Stats.stretches]

-- ============================================================================
-- Runs
-- ============================================================================

/-- Where control goes before each turn of a drive, and the desk there. -/
def stops (fuel : Nat) (single : Bool) : Nat → Next → Desk → List (Next × Desk)
  | 0, _, _ => []
  | _ + 1, .finish x, d => [(.finish x, d)]
  | n + 1, next, d =>
    (next, d) ::
      match turn fuel single next d with
      | .done next' d' => stops fuel single n next' d'
      | .failed _ _ => []
      | .starved => []

theorem stops_succ {fuel n : Nat} {single : Bool} {next' : Next} {d' : Desk} (h : 0 < next.rank)
    (hturn : turn fuel single next d = .done next' d') :
    stops fuel single (n + 1) next d = (next, d) :: stops fuel single n next' d' := by
  cases next with
  | finish x => exact absurd h (Nat.lt_irrefl 0)
  | arrive | interpret | fallBack | execute =>
    rw [stops, hturn]
    exact fun x hx => by cases hx

/-- The account of a drive, over all of its stops. -/
structure Balances (fuel : Nat) (stops : List (Next × Desk)) (e : Engine) (next : Next)
    (e' : Engine) : Prop where
  stretches : e'.stats.stretches + e.stats.handovers = e.stats.stretches + next.due +
    e'.stats.handovers + stops.countP (fun s => fallsBack fuel s.1 s.2)
  attempts : e'.stats.attempts + e.compilings =
    e.stats.attempts + stops.countP (fun s => s.2.engine.phase = .compiling)
  recorded : e.policy.recordEvents = true → e'.recorded + e.compilings =
    e.recorded + stops.countP (fun s => s.2.engine.phase = .compiling)
  units : e'.stats.unitsCompiled + next.dueRuns + e.stats.compiledRuns ≤
    e.stats.unitsCompiled + e'.stats.compiledRuns
  empty : e'.stats.emptyRegions + e.emptyEntries.size = e.stats.emptyRegions + e'.emptyEntries.size

theorem Balances.cons {stops : List (Next × Desk)} {next' : Next} {e₁ : Engine} {fuel : Nat}
    (h : Accounts next.due next.dueRuns (if fallsBack fuel next d then 1 else 0) d.engine next' e₁)
    (h' : Balances fuel stops e₁ next' e') :
    Balances fuel ((next, d) :: stops) d.engine next e' := by
  have hcount : ((next, d) :: stops).countP (fun s => s.2.engine.phase = .compiling) =
      stops.countP (fun s => s.2.engine.phase = .compiling) + d.engine.compilings := by
    rw [List.countP_cons, compilings]
    simp only [decide_eq_true_eq]
  refine ⟨?_, ?_, fun hrecord => ?_, ?_, ?_⟩
  · have h₁ := h.stretches
    have h₂ := h'.stretches
    rw [List.countP_cons]
    dsimp only
    omega
  · have h₁ := h.attempts
    have h₂ := h'.attempts
    omega
  · have h₁ := h.recorded hrecord
    have h₂ := h'.recorded (h.policy_eq ▸ hrecord)
    omega
  · have h₁ := h.units
    have h₂ := h'.units
    omega
  · have h₁ := h.empty
    have h₂ := h'.empty
    omega

/-- A drive that is at its end has nothing more to account for. -/
theorem balances_finish {fuel : Nat} {x : Exit} :
    Balances fuel [(.finish x, d)] d.engine (.finish x) (d.engine.turnInto .interpreting loc) := by
  have hcount : [((.finish x : Next), d)].countP (fun s => s.2.engine.phase = .compiling) =
      d.engine.compilings := by
    rw [List.countP_cons, compilings]
    simp
  have hturned : (d.engine.turnInto .interpreting loc).compilings = 0 :=
    compilings_of_ne (fun h => by cases h)
  refine ⟨rfl, ?_, fun hrecord => ?_, Nat.le_refl _, rfl⟩
  · rw [hcount]
    rfl
  · rw [hcount, recorded_turnInto (Or.inr (by decide)) hrecord, hturned, Nat.add_zero]

/-- Over the turns of a drive that ends, the account balances. -/
theorem drive_balances {fuel n : Nat} {single : Bool} {x : Exit} {d' : Desk}
    (h : drive fuel single n next d = .done x d') :
    Balances fuel (stops fuel single n next d) d.engine next d'.engine := by
  induction n generalizing next d with
  | zero => cases h
  | succ n ih =>
    rcases Nat.eq_zero_or_pos next.rank with hr | hr
    · cases next with
      | arrive | interpret | fallBack | execute => cases hr
      | finish x' =>
        have henter := enter_gives .interpreting x'.loc d
        rw [drive, Work.bind_apply] at h
        cases hd₁ : Work.enter .interpreting x'.loc d with
        | starved | failed =>
          rw [hd₁] at h
          cases h
        | done a d₁ =>
          rw [hd₁] at h henter
          cases h
          have hd' : d' = _ := henter
          rw [hd']
          exact balances_finish
    · have hturn := settles_turn fuel single hr d
      rw [drive_succ hr, Work.bind_apply] at h
      cases hnext : turn fuel single next d with
      | starved | failed =>
        rw [hnext] at h
        cases h
      | done next' d₁ =>
        rw [hnext] at h hturn
        rw [stops_succ hr hnext]
        exact Balances.cons hturn (ih h)

/-- A new engine has counted and recorded nothing. -/
theorem IsNew.unused {p : Program} {pol : Policy} (h : e.IsNew p pol) :
    e.stats = {} ∧ e.emptyEntries = {} ∧ e.events = #[] ∧ e.phase = .interpreting := by
  obtain ⟨e₁, simplifies, he₁, rfl⟩ := h
  unfold ofPolicy at he₁
  split at he₁
  · cases he₁
    exact ⟨rfl, rfl, rfl, rfl⟩
  · cases he₁

/-- At the end of a run of a new engine, whatever its interpreter can execute, the numbers
add up. Every stretch of execution is the first, or follows an arrival, a promotion or a
unit that fell back. The engine has turned to compiling as often as an attempt gave a unit,
gave up or found nothing; these are the stops at which it is compiling, since a turn begins
in another phase and turns to compiling last, and the changes that are recorded, if they
are. Every unit that was compiled has run, and every place that was found to be empty is
known. -/
theorem stats_are_conserved {p : Program} {pol : Policy} (he : e.IsNew p pol)
    (capabilities : Capabilities) {fuel : Nat} {input : List Value} {x : Exit} {d₀ d : Desk}
    (hd₀ : d₀ = .ofEngine { e with capabilities } input) (h : run fuel loc f d₀ = .done x d) :
    d.engine.stats.interpretedSegments + d.engine.stats.fallbackSegments +
        d.engine.stats.compiledRuns =
      1 + d.engine.stats.mergePointArrivals + d.engine.stats.promotionExits +
        (stops fuel false fuel (.interpret loc f) d₀).countP (fun s => fallsBack fuel s.1 s.2) ∧
    (stops fuel false fuel (.interpret loc f) d₀).countP
        (fun s => s.2.engine.phase = .compiling) =
      d.engine.stats.unitsCompiled + d.engine.stats.specializationFallbacks +
        d.engine.stats.emptyRegions ∧
    (pol.recordEvents = true → d.engine.events.toList.countP (fun t => t.new = .compiling) =
      d.engine.stats.unitsCompiled + d.engine.stats.specializationFallbacks +
        d.engine.stats.emptyRegions) ∧
    d.engine.stats.unitsCompiled ≤ d.engine.stats.compiledRuns ∧
    d.engine.stats.emptyRegions = d.engine.emptyEntries.size := by
  have hbalance := drive_balances h
  obtain ⟨hstats, hempty, hevents, hphase⟩ := he.unused
  have hstats₀ : d₀.engine.stats = {} := by rw [hd₀]; exact hstats
  have hempty₀ : d₀.engine.emptyEntries = {} := by rw [hd₀]; exact hempty
  have hcompilings₀ : d₀.engine.compilings = 0 := by
    refine compilings_of_ne ?_
    rw [hd₀]
    exact hphase ▸ (by decide)
  have hrecorded₀ : d₀.engine.recorded = 0 := by
    rw [hd₀]
    unfold recorded
    exact congrArg (fun events : Array Transition => events.toList.countP _) hevents
  have hpolicy₀ : d₀.engine.policy = pol := by rw [hd₀]; exact he.isBlank.policy_eq
  obtain ⟨hstretches, hattempts, hrecorded, hunits, hsizes⟩ := hbalance
  rw [hstats₀] at hstretches hattempts hunits hsizes
  rw [hcompilings₀] at hattempts hrecorded
  rw [hpolicy₀, hrecorded₀] at hrecorded
  rw [hempty₀] at hsizes
  simp only [Stats.stretches, Stats.handovers, Next.due] at hstretches
  simp only [Stats.attempts] at hattempts
  refine ⟨by omega, by omega, fun hrecord => ?_, ?_, ?_⟩
  · have hrecorded : d.engine.events.toList.countP (fun t => t.new = .compiling) + 0 = 0 + _ :=
      hrecorded hrecord
    omega
  · have hruns : d.engine.stats.unitsCompiled + 0 + 0 ≤ 0 + d.engine.stats.compiledRuns := hunits
    omega
  · have hsizes : d.engine.stats.emptyRegions + 0 = 0 + d.engine.emptyEntries.size := hsizes
    omega

/-- A loop around two merge points, of which the first has an empty region, and a split
that allocates. It counts down with a promoted register. -/
def gathering : Function :=
  { name := "gathering", registers := 3,
    code := #[.const 0 (.int 4), .const 1 (.int 1), .mergePoint [], .mergePoint [], .input 2,
      .branch 2 7 (some 7), .alloc 2 [2], .promote 0, .binary .sub 0 0 1, .branch 0 11 none,
      .jump 2, .ret 0] }

/-- The loop as a program. -/
def gatheringProgram : Program :=
  { functions := #[gathering], entry := 0, facts := .ofFunctions #[gathering],
    faultless := by decide, facts_eq := rfl }

/-- Compiles as soon as it can, and records changes of phase. -/
def gatheringPolicy : Policy :=
  { mergePointThreshold := 1, promotionThreshold := 1, splitThreshold := 1, recordEvents := true }

/-- A new engine for the loop. -/
def gatheringEngine : Engine := .ofValid gatheringProgram gatheringPolicy rfl

/-- The start of a run of the loop. -/
def gatheringDesk : Desk := .ofEngine gatheringEngine [.int 1, .int 1, .int 0, .int 1]

/-- In a run in which something of everything happens, the numbers of the engine tell how
many units fell back, and how often it turned to compiling. -/
theorem stats_are_conserved_gathering :
    ∃ x d, run 40 ⟨0, 0⟩ (Frame.blank 3) gatheringDesk = .done x d ∧
      d.engine.stats = ⟨8, 2, 5, 2, 5, 3, 1, 2⟩ ∧
      (stops 40 false 40 (.interpret ⟨0, 0⟩ (Frame.blank 3)) gatheringDesk).countP
        (fun s => fallsBack 40 s.1 s.2) = 1 ∧
      (stops 40 false 40 (.interpret ⟨0, 0⟩ (Frame.blank 3)) gatheringDesk).countP
        (fun s => s.2.engine.phase = .compiling) = 6 ∧
      d.engine.events.toList.countP (fun t => t.new = .compiling) = 6 ∧
      d.engine.emptyEntries.size = 2 := by
  have hnew : gatheringEngine.IsNew gatheringProgram gatheringPolicy := isNew_ofValid rfl
  have hdesk : gatheringDesk = .ofEngine { gatheringEngine with capabilities := .all }
      [.int 1, .int 1, .int 0, .int 1] := rfl
  have hrun : ((run 40 ⟨0, 0⟩ (Frame.blank 3) gatheringDesk).result?.isSome = true) ∧
      (run 40 ⟨0, 0⟩ (Frame.blank 3) gatheringDesk).state?.any (fun d =>
        d.engine.stats = ⟨8, 2, 5, 2, 5, 3, 1, 2⟩) = true := by
    decide +kernel
  cases h : run 40 ⟨0, 0⟩ (Frame.blank 3) gatheringDesk with
  | starved | failed =>
    rw [h] at hrun
    exact absurd hrun.1 Bool.false_ne_true
  | done x d =>
    rw [h] at hrun
    have hstats : d.engine.stats = ⟨8, 2, 5, 2, 5, 3, 1, 2⟩ := of_decide_eq_true hrun.2
    obtain ⟨hstretches, hattempts, hrecorded, -, hempty⟩ :=
      stats_are_conserved hnew .all hdesk h
    have hrecorded := hrecorded rfl
    rw [hstats] at hstretches hattempts hrecorded hempty
    simp only at hstretches
    exact ⟨x, d, rfl, hstats, by omega, hattempts, hrecorded, hempty.symm⟩

end Engine

end HotPath
