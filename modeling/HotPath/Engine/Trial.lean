/-
  HotPath.Engine.Trial

  Whole runs of a program under a policy, and whether two of them agree.
-/
import HotPath.Engine.Drive

namespace HotPath

/-- A finished run of a program. -/
structure Trial where
  result : Except Fault Value
  desk : Desk

namespace Trial

/-- Runs a program on input with a new engine. There is no trial if the
allowance runs out. -/
def run? (fuel : Nat) (engine : Engine) (input : List Value) : Option Trial :=
  match Engine.runProgram fuel (.ofEngine engine input) with
  | .done v d => some ⟨.ok v, d⟩
  | .failed e d => some ⟨.error e, d⟩
  | .starved => none

/-- What the run printed. -/
def output (t : Trial) : Array Value := t.desk.io.output

/-- Whether two results are the same; faults are the same if they read the
same. -/
def sameResult : Except Fault Value → Except Fault Value → Bool
  | .ok a, .ok b => a == b
  | .error e, .error f => e.message == f.message
  | _, _ => false

/-- Whether two runs are the same to someone who only sees results and output. -/
def agrees (t u : Trial) : Bool := sameResult t.result u.result && t.output == u.output

end Trial

/-- A program run with and without specialization. -/
structure Comparison where
  interpreted : Trial
  specialized : Trial

/-- Runs a program with and without specialization. -/
def Comparison.run? (fuel : Nat) (program : Program) (policy : Policy) (input : List Value) :
    Except Fault (Option Comparison) := do
  let plain ← Engine.ofPolicy program { policy with enabled := false }
  let special ← Engine.ofPolicy program { policy with enabled := true }
  return do
    let interpreted ← Trial.run? fuel plain input
    let specialized ← Trial.run? fuel special input
    return { interpreted, specialized }

end HotPath
