/-
  HotPath.Engine.Turn

  One turn of an engine: from one place where execution changes hands to the
  next decision. `Engine.turn` is the whole of what an engine does between two
  looks at the store, so engines that share a store take turns.
-/
import HotPath.Engine.Basic
import HotPath.Promotion

namespace HotPath

/-- Where control goes next. -/
inductive Next where
  /-- It is at a merge point where execution changes hands. -/
  | arrive (loc : Location) (frame : Frame)
  | interpret (loc : Location) (frame : Frame)
  /-- Interpret, because specialized code cannot go on. -/
  | fallBack (loc : Location) (frame : Frame)
  | execute (unit : CodeUnit) (frame : Frame)
  | finish (exit : Exit)

namespace Engine

/-! ## Compiling -/

/-- What came of compiling. -/
inductive Compiled where
  | unit (unit : CodeUnit)
  | interpret
  | fallBack

/-- Makes a trace into a unit. -/
def commit (entry : UnitEntry) (f : Frame) (t : Trace) : Work CodeUnit := do
  let id ← Work.onStore UnitStore.freshId
  let d ← Work.desk
  let unit : CodeUnit :=
    { id, entry, trace := if d.engine.simplifies then t.simplify else t, opCount := t.opCount,
      entryTaint := f.mask }
  Work.tally (fun s => { s with unitsCompiled := s.unitsCompiled + 1 })
  Work.onEngine (fun e => { e with committed := e.committed.push unit })
  return unit

/-- Specializes a region for a place. Walks that should have met and did not
end all specialization. -/
def compile (r : Region) (entry : UnitEntry) (f : Frame) : Work Compiled := do
  let d ← Work.desk
  match r.specialize d.guide with
  | .ok (.committed t) =>
    let unit ← commit entry f t
    return .unit unit
  | .ok .empty =>
    Work.tally (fun s => { s with emptyRegions := s.emptyRegions + 1 })
    Work.onEngine (fun e => e.noteEmpty entry)
    return .interpret
  | .ok (.fallback _) =>
    Work.tally (fun s => { s with specializationFallbacks := s.specializationFallbacks + 1 })
    return .fallBack
  | .error (.mergeIncompatible _) =>
    Work.onStore (fun s => ((), s.disable))
    return .interpret
  | .error e => Work.fail e

/-! ## Decisions -/

/-- Interprets from the address after this one. -/
def interpretAfter (loc : Location) (f : Frame) : Work Next := do
  let next ← Work.lift (inWidth loc.next?)
  return .interpret next f

/-- Falls back to the address after this one. -/
def fallBackAfter (loc : Location) (f : Frame) : Work Next := do
  let next ← Work.lift (inWidth loc.next?)
  return .fallBack next f

/-- Compiles the region of a merge point instance, and goes on with it. -/
def compileMergePoint (loc : Location) (f : Frame) (k : MergeKey) : Work Next := do
  Work.enter .compiling loc
  let d ← Work.desk
  let r ← Work.lift (Region.atMergePoint loc (d.engine.program.greens loc) f)
  match ← compile r (.mergePoint k) f with
  | .unit u =>
    Work.onStore (fun s => ((), s.install k u))
    return .execute u f
  | .interpret => interpretAfter loc f
  | .fallBack => fallBackAfter loc f

/-- Decides at a merge point: run its unit, compile it once it is hot, or
interpret. -/
def onMergePoint (loc : Location) (f : Frame) : Work Next := do
  Work.enter .armed loc
  Work.tally (fun s => { s with mergePointArrivals := s.mergePointArrivals + 1 })
  let d ← Work.desk
  if d.isActive then
    let k := MergeKey.ofFrame loc (d.engine.program.greens loc) f
    match CodeUnit.fitting? f (d.store.lookup k) with
    | some u => return .execute u f
    | none =>
      let count ← Work.observe (.mergePoint k)
      if count < d.engine.policy.mergePointThreshold ∨
          d.engine.emptyEntries.contains (.mergePoint k) then
        interpretAfter loc f
      else compileMergePoint loc f k
  else interpretAfter loc f

/-- Compiles a region after a promotion site, installs it and goes on with it. -/
def compilePromotion (site : Location) (f : Frame) (entry : UnitEntry) (r : Region)
    (install : CodeUnit → UnitStore → Bool × UnitStore) : Work Next := do
  let d ← Work.desk
  if d.engine.emptyEntries.contains entry then fallBackAfter site f
  else
    Work.enter .compiling site
    match ← compile r entry f with
    | .unit u =>
      let _ ← Work.onStore (install u)
      return .execute u f
    | .interpret | .fallBack => fallBackAfter site f

/-- Counts the value of a promotion site, and decides how to go on from it. -/
def decidePromotion (site : Location) (value : Value) (f : Frame) : Work Decision := do
  let k ← Work.onStore (fun s => s.heatKey site value)
  let count ← Work.observe k
  let d ← Work.desk
  Work.onStore (fun s => s.decide d.engine.policy.promotionThreshold site value count f)

/-- Goes on from a promotion site whose register a unit does not know. -/
def onPromotion (site : Location) (reg : Reg) (f : Frame) : Work Next := do
  Work.tally (fun s => { s with promotionExits := s.promotionExits + 1 })
  let d ← Work.desk
  if d.isActive && !f.isTainted reg then
    let value := f.get reg
    match ← decidePromotion site value f with
    | .cached u => return .execute u f
    | .fallback => fallBackAfter site f
    | .specialize =>
      let r ← Work.lift (Region.atPromotion site reg f)
      compilePromotion site f (.promotion site value) r
        (fun u s => s.installPromotion site ⟨value, f.mask, u⟩)
    | .specializeGeneric =>
      let next ← Work.lift (inWidth site.next?)
      compilePromotion site f (.generic site) (Region.generic next f)
        (fun u s => s.installGeneric site u)
  else fallBackAfter site f

/-! ## Running -/

/-- Goes on after an exit that ends a segment. With `single`, the run ends at
the next merge point. -/
def afterSegment (single : Bool) (e : Exit) : Next :=
  match e.kind with
  | .mergePoint => if single then .finish e else .arrive e.loc e.frame
  | _ => .finish e

/-- Interprets one segment. An instruction that the interpreter cannot execute
ends all specialization. -/
def interpret (fuel : Nat) (single : Bool) (loc : Location) (f : Frame) : Work Next := fun d =>
  match d.engine.interpreter.segment fuel loc f d.profile with
  | .done e p => .done (afterSegment single e) (d.withProfile p)
  | .failed e p =>
    match e with
    | .gap .. => .failed e (d.withProfile { p with store := p.store.disable })
    | _ => .failed e (d.withProfile p)
  | .starved => .starved

/-- Runs a unit until it leaves. -/
def runUnit (fuel : Nat) (u : CodeUnit) (f : Frame) : Work Exit := fun d =>
  match u.run d.engine.unitMachine fuel f d.io with
  | .done e io => .done e { d with io }
  | .failed e io => .failed e { d with io }
  | .starved => .starved

/-- Goes on after a unit left. -/
def afterUnit (single : Bool) (e : Exit) : Work Next :=
  match e.kind with
  | .promotion reg => onPromotion e.loc reg e.frame
  | .fallback => Work.pure (.fallBack e.loc e.frame)
  | .mergePoint | .returned _ => Work.pure (afterSegment single e)

/-- One turn. -/
def turn (fuel : Nat) (single : Bool) : Next → Work Next
  | .arrive loc f => onMergePoint loc f
  | .interpret loc f => do
    Work.enter .interpreting loc
    Work.tally (fun s => { s with interpretedSegments := s.interpretedSegments + 1 })
    interpret fuel single loc f
  | .fallBack loc f => do
    Work.enter .fallingBack loc
    Work.tally (fun s => { s with fallbackSegments := s.fallbackSegments + 1 })
    interpret fuel single loc f
  | .execute u f => do
    Work.enter .executing u.entry.loc
    Work.tally (fun s => { s with compiledRuns := s.compiledRuns + 1 })
    let e ← runUnit fuel u f
    afterUnit single e
  | .finish e => Work.pure (.finish e)

end Engine

end HotPath
