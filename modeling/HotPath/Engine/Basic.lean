/-
  HotPath.Engine.Basic

  Engines, and the work they do on a desk: an engine, the store it installs
  units in and the console. Work that fails leaves the desk as it was when it
  failed.
-/
import HotPath.Engine.Phase
import HotPath.Engine.Stats
import HotPath.Region.Grow
import HotPath.Segment

namespace HotPath

/-- An engine that runs a program. -/
structure Engine where
  program : Program
  policy : Policy
  /-- What the interpreter of segments can execute; units can do everything. -/
  capabilities : Capabilities := .all
  /-- Whether useless operations of new units are dropped. -/
  simplifies : Bool := true
  heat : Heat := {}
  /-- Places whose regions turned out to be empty. -/
  emptyEntries : KeySet UnitEntry := {}
  phase : Phase := .interpreting
  stats : Stats := {}
  /-- Changes of phase, if the policy asks for them. -/
  events : Array Transition := #[]
  /-- All units compiled, in order. -/
  committed : Array CodeUnit := #[]

namespace Engine

/-- A new engine, if the policy can be used. -/
def ofPolicy (program : Program) (policy : Policy) : Except Fault Engine :=
  match policy.validate with
  | .ok _ => .ok { program, policy, heat := { dedup := policy.dedupCounters } }
  | .error e => .error e

/-- The interpreter of segments. -/
def interpreter (e : Engine) : Machine :=
  { program := e.program, capabilities := e.capabilities, maxCallDepth := e.policy.maxCallDepth,
    loopHeadersOnly := e.policy.loopHeadersOnly }

/-- The machine that runs the calls of units. -/
def unitMachine (e : Engine) : Machine := { e.interpreter with capabilities := .all }

/-- Changes the phase. -/
def turnInto (e : Engine) (new : Phase) (loc : Location) : Engine :=
  { e with
    phase := new
    events := if e.policy.recordEvents ∧ e.phase ≠ new then e.events.push ⟨e.phase, new, loc⟩
      else e.events }

/-- Remembers that a place has an empty region. -/
def noteEmpty (e : Engine) (entry : UnitEntry) : Engine :=
  { e with emptyEntries := e.emptyEntries.add entry }

end Engine

/-- What an engine works with. -/
structure Desk where
  engine : Engine
  store : UnitStore
  io : Console

namespace Desk

/-- A desk for a new run of an engine with a store of its own. -/
def ofEngine (e : Engine) (input : List Value) : Desk :=
  ⟨e, .ofThreshold e.policy.megamorphicThreshold, { input }⟩

/-- Whether anything is specialized. -/
def isActive (d : Desk) : Bool := d.engine.policy.enabled && !d.store.disabled

/-- All that specialization consults. -/
def guide (d : Desk) : Guide := ⟨d.engine.program, d.engine.policy, d.engine.heat, d.store⟩

/-- The part that interpreted segments change. -/
def profile (d : Desk) : Profile := ⟨d.io, d.engine.heat, d.store⟩

/-- Takes over what a segment changed. -/
def withProfile (d : Desk) (p : Profile) : Desk :=
  { engine := { d.engine with heat := p.heat }, store := p.store, io := p.io }

end Desk

/-- Work on a desk. -/
def Work (α : Type) : Type := Desk → Outcome Desk α

namespace Work

variable {α β : Type}

/-- Work that is done already. -/
@[inline] protected def pure (a : α) : Work α := fun d => .done a d

/-- One piece of work after another. -/
@[inline] protected def bind (w : Work α) (next : α → Work β) : Work β := fun d =>
  match w d with
  | .done a d => next a d
  | .failed e d => .failed e d
  | .starved => .starved

@[always_inline] instance : Monad Work where
  pure := Work.pure
  bind := Work.bind

theorem pure_apply (a : α) (d : Desk) : (pure a : Work α) d = .done a d := rfl

theorem bind_apply (w : Work α) (next : α → Work β) (d : Desk) :
    (w >>= next) d =
      match w d with
      | .done a d => next a d
      | .failed e d => .failed e d
      | .starved => .starved := rfl

/-- Looks at the desk. -/
def desk : Work Desk := fun d => .done d d

/-- Work that fails. -/
def fail (e : Fault) : Work α := fun d => .failed e d

/-- Work that runs out of its allowance. -/
def starve : Work α := fun _ => .starved

/-- A computation that may fail. -/
def lift : Except Fault α → Work α
  | .ok a => Work.pure a
  | .error e => fail e

/-- Changes the engine. -/
def onEngine (change : Engine → Engine) : Work Unit := fun d =>
  .done () { d with engine := change d.engine }

/-- Changes the store, with a result. -/
def onStore (change : UnitStore → α × UnitStore) : Work α := fun d =>
  .done (change d.store).1 { d with store := (change d.store).2 }

/-- Counts something an engine did. -/
def tally (change : Stats → Stats) : Work Unit :=
  onEngine (fun e => { e with stats := change e.stats })

/-- Turns into a phase; one that must not follow is a breach, and changes
nothing. -/
def enter (new : Phase) (loc : Location) : Work Unit := fun d =>
  if d.engine.phase.canTurnInto new then
    .done () { d with engine := d.engine.turnInto new loc }
  else .failed (.breach .illegalTransition) d

/-- Counts a key, and gives its count. -/
def observe (k : HeatKey) : Work Nat := fun d =>
  .done (d.engine.heat.observe k).1
    { d with engine := { d.engine with heat := (d.engine.heat.observe k).2 } }

end Work

end HotPath
