/-
  HotPath.Exit

  How executors hand control back: exits, what they saw on the way, and the
  outcome of a computation that runs on an allowance of steps.
-/
import HotPath.Console
import HotPath.Fault
import HotPath.Frame

namespace HotPath

/-- Why an executor stopped. -/
inductive ExitKind where
  /-- It arrived at a merge point where execution changes hands. -/
  | mergePoint
  /-- A unit arrived at a promotion site whose register it does not know. -/
  | promotion (reg : Reg)
  /-- A unit needs interpretation to go on from here. -/
  | fallback
  /-- The function returned. -/
  | returned (value : Value)
  deriving DecidableEq

/-- Where and why an executor stopped, and the frame it left. -/
structure Exit where
  loc : Location
  kind : ExitKind
  frame : Frame
  deriving DecidableEq

/-- The value that an exit returns, if it does. -/
def Exit.value? (e : Exit) : Option Value :=
  match e.kind with
  | .returned v => some v
  | _ => none

/-- Something worth counting that a function passes. -/
inductive Observation where
  /-- A promotion site with an untainted value. -/
  | promotion (site : Location) (value : Value)
  /-- A split, with the arm it took: true is the one that falls through. -/
  | split (site : Location) (taken : Bool)
  deriving DecidableEq

/-- What a computation leaves beside its result: the console, and what was
observed, in order. -/
structure Track where
  io : Console
  seen : Array Observation
  deriving DecidableEq

/-- How a computation on an allowance of steps ends, with the state it leaves.
A computation that used up its allowance leaves nothing. -/
inductive Outcome (σ α : Type) where
  | done (result : α) (state : σ)
  | failed (fault : Fault) (state : σ)
  | starved

end HotPath
