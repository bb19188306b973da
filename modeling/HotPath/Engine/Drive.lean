/-
  HotPath.Engine.Drive

  Running an engine: turn after turn, until the top frame returns or, where a
  single step is asked for, until the next merge point.
-/
import HotPath.Engine.Turn

namespace HotPath

namespace Engine

/-- Takes turns until control finishes. The allowance bounds the number of
turns, and the instructions of each. -/
def drive (fuel : Nat) (single : Bool) : Nat → Next → Work Exit
  | 0, _ => Work.starve
  | _ + 1, .finish e => do
    Work.enter .interpreting e.loc
    return e
  | n + 1, next => do
    let next ← turn fuel single next
    drive fuel single n next

/-- Runs from an address until the top frame returns. -/
def run (fuel : Nat) (loc : Location) (f : Frame) : Work Exit :=
  drive fuel false fuel (.interpret loc f)

/-- Handles one arrival at a merge point, up to the next one or a return. -/
def arrive (fuel : Nat) (loc : Location) (f : Frame) : Work Exit :=
  drive fuel true fuel (.arrive loc f)

/-- Handles one promotion, up to the next merge point or a return. -/
def promote (fuel : Nat) (site : Location) (reg : Reg) (f : Frame) : Work Exit := do
  let next ← onPromotion site reg f
  drive fuel true fuel next

/-- Runs the program's entry function. -/
def runProgram (fuel : Nat) : Work Value := do
  let d ← Work.desk
  let e ← run fuel ⟨d.engine.program.entry, 0⟩ d.engine.program.entryFrame
  match e.value? with
  | some v => return v
  | none => Work.fail (.program (.noReturn e.loc))

end Engine

end HotPath
