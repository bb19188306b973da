/-
  HotPath.Proofs.Engine.Workers

  Engines at work, one turn after the other. A worker is an engine with the call that
  it is busy with, if there is one; it takes up a call when it is idle, takes the turns
  of the call and is idle again when the call has ended or failed
  (`Worker.step?`). Between two turns others may use the store.

  What a step does to the books of a worker is a change as `Books.Change` describes it
  (`Worker.advances_of_step?`), and every call that ends or fails is a path of such
  steps (`Engine.Call.steps_of_make`).
-/
import HotPath.Proofs.Engine.Books
import Mathlib.Logic.Relation

namespace HotPath

namespace Engine

/-- What is left of a call: where control goes next, and whether the call ends at the
next merge point. -/
structure Job where
  single : Bool
  next : Next

/-- One turn of a job, or its end. -/
def Job.lap (fuel : Nat) (job : Job) : Work (Option Job) :=
  match job.next with
  | .finish e => do
    Work.enter .interpreting e.loc
    return none
  | next => do
    let next ← turn fuel job.single next
    return some ⟨job.single, next⟩

/-- Takes up a call. -/
def Call.begin : Call → Work (Option Job)
  | .program => do
    let d ← Work.desk
    return some ⟨false, .interpret ⟨d.engine.program.entry, 0⟩ d.engine.program.entryFrame⟩
  | .run loc f => return some ⟨false, .interpret loc f⟩
  | .arrival (.mergePoint loc f) => return some ⟨true, .arrive loc f⟩
  | .arrival (.promotion site reg f) => do
    let next ← onPromotion site reg f
    return some ⟨true, next⟩

end Engine

/-- An engine, and the call that it is busy with, on the console of the call. -/
structure Worker where
  engine : Engine
  job : Option (Engine.Job × Console)

/-- What a worker can do. -/
inductive Act where
  | call (c : Engine.Call) (io : Console)
  | turn (fuel : Nat)
  /-- Between calls, an engine may be given other equipment. -/
  | equip (capabilities : Capabilities) (simplifies : Bool)

namespace Worker

/-- A worker without a call. -/
def idle (e : Engine) : Worker := ⟨e, none⟩

/-- The books of a worker that uses a store. -/
def books (w : Worker) (s : UnitStore) : Books := Desk.books ⟨w.engine, s, {}⟩

/-- The merge point instance that the next turn of a worker handles an arrival at. -/
def handles (w : Worker) : Option MergeKey :=
  match w.job with
  | some (job, _) => w.engine.handles job.next
  | none => none

/-- The worker and the store after work on a call. One that has failed is idle. -/
def settle : Outcome Desk (Option Engine.Job) → Option (Worker × UnitStore)
  | .done job d => some (⟨d.engine, job.map (fun j => (j, d.io))⟩, d.store)
  | .failed _ d => some (idle d.engine, d.store)
  | .starved => none

/-- One step of a worker on a store. There is none if the allowance runs out. -/
def step? (w : Worker) (s : UnitStore) (a : Act) : Option (Worker × UnitStore) :=
  match a, w.job with
  | .call c io, none => settle (c.begin ⟨w.engine, s, io⟩)
  | .turn fuel, some (job, io) => settle (job.lap fuel ⟨w.engine, s, io⟩)
  | .equip capabilities simplifies, none =>
    some (idle { w.engine with capabilities, simplifies }, s)
  | _, _ => none

/-- One of the steps that a worker can take. -/
def Step (x y : Worker × UnitStore) : Prop := ∃ a, x.1.step? x.2 a = some y

-- ============================================================================
-- Changes
-- ============================================================================

/-- A worker goes on with the same program and policy, and a change to its books. -/
structure Advances (w : Worker) (s : UnitStore) (w' : Worker) (s' : UnitStore) : Prop where
  program_eq : w'.engine.program = w.engine.program
  policy_eq : w'.engine.policy = w.engine.policy
  change : (w.books s).Change w.engine.program w.engine.policy w.handles (w'.books s')

variable {w w' : Worker} {s s' : UnitStore}

theorem advances_of_settle {o : Outcome Desk (Option Engine.Job)} {io : Console}
    (h : o.Leaves (Desk.Changes w.handles ⟨w.engine, s, io⟩)) (ho : settle o = some (w', s')) :
    w.Advances s w' s' := by
  cases o with
  | done job d =>
    cases ho
    exact ⟨h.program_eq, h.policy_eq, h.change⟩
  | failed e d =>
    cases ho
    exact ⟨h.program_eq, h.policy_eq, h.change⟩
  | starved => cases ho

end Worker

namespace Engine

theorem Job.lap_changes (fuel : Nat) (job : Job) (d : Desk) :
    (job.lap fuel d).Leaves (d.Changes (d.engine.handles job.next)) := by
  have hturn : ∀ next, ((do
      let next ← turn fuel job.single next
      return some ⟨job.single, next⟩ : Work (Option Job)) d).Leaves
        (d.Changes (d.engine.handles next)) := fun next =>
    Work.leaves_bind (turn_changes fuel job.single next d) (fun _ => id) (fun _ _ => id)
  unfold lap
  cases job.next with
  | finish e =>
    exact Work.leaves_bind (Work.leaves_enter .interpreting e.loc d) (fun _ h => h.rest)
      (fun _ _ h => h.rest)
  | arrive | interpret | fallBack | execute => exact hturn _

theorem Call.begin_changes (c : Call) (d : Desk) : (c.begin d).Leaves (d.Changes none) := by
  cases c with
  | program => exact ⟨rfl, rfl, .rest⟩
  | run loc f => exact ⟨rfl, rfl, .rest⟩
  | arrival a =>
    cases a with
    | mergePoint loc f => exact ⟨rfl, rfl, .rest⟩
    | promotion site reg f =>
      exact Work.leaves_bind (onPromotion_changes site reg f d) (fun _ => id) (fun _ _ => id)

end Engine

namespace Worker

variable {w w' : Worker} {s s' : UnitStore}

/-- All that can happen in a step. -/
theorem advances_of_step? {a : Act} (h : w.step? s a = some (w', s')) : w.Advances s w' s' := by
  unfold step? at h
  split at h
  · next c io hjob =>
    have hhandles : w.handles = none := by rw [handles, hjob]
    exact advances_of_settle (hhandles ▸ c.begin_changes _) h
  · next fuel job io hjob =>
    have hhandles : w.handles = w.engine.handles job.next := by rw [handles, hjob]
    have hlap := job.lap_changes fuel ⟨w.engine, s, io⟩
    exact advances_of_settle (hhandles ▸ hlap) h
  · next capabilities simplifies hjob =>
    have hhandles : w.handles = none := by rw [handles, hjob]
    cases h
    exact ⟨rfl, rfl, hhandles ▸ .rest⟩
  · cases h

end Worker

-- ============================================================================
-- Calls
-- ============================================================================

/-- What is done with a result leaves the desk alone. -/
theorem Work.state?_bind {α β : Type} {w : Work α} {next : α → Work β}
    (hn : ∀ a d', (next a d').state? = some d') (d : Desk) :
    ((w >>= next) d).state? = (w d).state? := by
  rw [Work.bind_apply]
  cases w d with
  | done a d' => exact hn a d'
  | failed x d' => rfl
  | starved => rfl

namespace Engine

open Relation

variable {e : Engine} {s : UnitStore} {io : Console} {d : Desk}

theorem Job.lap_of_rank {next : Next} (h : 0 < next.rank) (fuel : Nat) (single : Bool) :
    Job.lap fuel ⟨single, next⟩ = do
      let next ← turn fuel single next
      return some ⟨single, next⟩ := by
  cases next with
  | finish e => exact absurd h (Nat.lt_irrefl 0)
  | arrive | interpret | fallBack | execute => rfl

/-- A drive that ends or fails is a path of steps, at the end of which the worker is
idle. -/
theorem steps_of_drive {fuel n : Nat} {single : Bool} {next : Next}
    (h : (drive fuel single n next ⟨e, s, io⟩).state? = some d) :
    ReflTransGen Worker.Step (⟨e, some (⟨single, next⟩, io)⟩, s) (.idle d.engine, d.store) := by
  induction n generalizing e s io next with
  | zero => cases h
  | succ n ih =>
    have hlap : ∀ {y}, Worker.settle (Job.lap fuel ⟨single, next⟩ ⟨e, s, io⟩) = some y →
        Worker.Step (⟨e, some (⟨single, next⟩, io)⟩, s) y := fun hy => ⟨.turn fuel, hy⟩
    rcases Nat.eq_zero_or_pos next.rank with hr | hr
    · cases next with
      | finish x =>
        refine .single (hlap ?_)
        simp only [drive, Job.lap, Work.bind_apply] at h ⊢
        cases henter : Work.enter .interpreting x.loc ⟨e, s, io⟩ with
        | starved =>
          rw [henter] at h
          cases h
        | done _ d' =>
          rw [henter] at h
          cases h
          rfl
        | failed x d' =>
          rw [henter] at h
          cases h
          rfl
      | arrive | interpret | fallBack | execute => cases hr
    · rw [drive_succ hr, Work.bind_apply] at h
      rw [Job.lap_of_rank hr, Work.bind_apply] at hlap
      cases hturn : turn fuel single next ⟨e, s, io⟩ with
      | starved =>
        rw [hturn] at h
        cases h
      | done next' d' =>
        rw [hturn] at h hlap
        exact (ReflTransGen.single (hlap rfl)).trans (ih h)
      | failed x d' =>
        rw [hturn] at h hlap
        cases h
        exact .single (hlap rfl)

/-- So is every call that ends or fails. -/
theorem Call.steps_of_make {c : Call} {fuel : Nat} (h : (c.make fuel ⟨e, s, io⟩).state? = some d) :
    ReflTransGen Worker.Step (.idle e, s) (.idle d.engine, d.store) := by
  have hbegin : ∀ {y}, Worker.settle (c.begin ⟨e, s, io⟩) = some y →
      Worker.Step (.idle e, s) y := fun hy => ⟨.call c io, hy⟩
  cases c with
  | program =>
    rw [make, Work.state?_bind (fun _ _ => rfl)] at h
    unfold runProgram at h
    rw [Work.desk_bind, Work.state?_bind (fun x d' => ?_)] at h
    · exact (ReflTransGen.single (hbegin rfl)).trans (steps_of_drive h)
    · cases x.value? with
      | some v => rfl
      | none => rfl
  | run loc f =>
    rw [make, Work.state?_bind (fun _ _ => rfl)] at h
    exact (ReflTransGen.single (hbegin rfl)).trans (steps_of_drive h)
  | arrival a =>
    rw [make, Work.state?_bind (fun _ _ => rfl)] at h
    cases a with
    | mergePoint loc f => exact (ReflTransGen.single (hbegin rfl)).trans (steps_of_drive h)
    | promotion site reg f =>
      rw [Arrival.handle, promote_eq, Work.bind_apply] at h
      simp only [begin, Work.bind_apply] at hbegin
      cases hnext : onPromotion site reg f ⟨e, s, io⟩ with
      | starved =>
        rw [hnext] at h
        cases h
      | done next d' =>
        rw [hnext] at h hbegin
        exact (ReflTransGen.single (hbegin rfl)).trans (steps_of_drive h)
      | failed x d' =>
        rw [hnext] at h hbegin
        cases h
        exact .single (hbegin rfl)

end Engine

end HotPath
