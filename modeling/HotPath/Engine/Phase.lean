/-
  HotPath.Engine.Phase

  The phases of an engine, and which of them may follow each other.
-/
import HotPath.Location

namespace HotPath

/-- What an engine is doing. -/
inductive Phase where
  | interpreting
  /-- At a merge point, deciding how to go on. -/
  | armed
  | compiling
  | executing
  /-- Interpreting after a unit left or an attempt failed. -/
  | fallingBack
  deriving DecidableEq

namespace Phase

/-- Whether a phase may follow another. -/
def canTurnInto : Phase → Phase → Bool
  | .interpreting, _ => true
  | .armed, .armed | .armed, .interpreting | .armed, .compiling | .armed, .executing => true
  | .compiling, .compiling | .compiling, .interpreting | .compiling, .executing
  | .compiling, .fallingBack => true
  | .executing, _ => true
  | .fallingBack, .fallingBack | .fallingBack, .interpreting | .fallingBack, .armed => true
  | _, _ => false

/-- A phase may follow itself. -/
@[simp] theorem canTurnInto_self (p : Phase) : p.canTurnInto p = true := by
  cases p <;> rfl

/-- The phase's name. -/
def name : Phase → String
  | .interpreting => "Interpreting"
  | .armed => "ArmedForJIT"
  | .compiling => "Compiling"
  | .executing => "ExecutingCompiled"
  | .fallingBack => "FallingBack"

end Phase

/-- A change of phase. -/
structure Transition where
  old : Phase
  new : Phase
  loc : Location
  deriving DecidableEq

/-- A change of phase as text. -/
def Transition.text (t : Transition) : String :=
  s!"{t.loc.text} {t.old.name} -> {t.new.name}"

end HotPath
