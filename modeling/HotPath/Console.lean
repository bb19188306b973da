/-
  HotPath.Console

  The world outside a program: a queue of input values and a log of output.
-/
import HotPath.Value.Basic

namespace HotPath

/-- Queued input, and everything printed so far. -/
structure Console where
  input : List Value := []
  /-- The log of output, the newest value first. -/
  printed : List Value := []
  deriving DecidableEq

namespace Console

/-- The next input value, and nil once there is none. -/
def read (c : Console) : Value × Console :=
  match c.input with
  | [] => (.nil, c)
  | v :: vs => (v, { c with input := vs })

/-- Prints a value. -/
def write (c : Console) (v : Value) : Console :=
  { c with printed := v :: c.printed }

/-- Everything printed so far, in order. -/
def output (c : Console) : Array Value := c.printed.reverse.toArray

@[simp] theorem output_write (c : Console) (v : Value) :
    (c.write v).output = c.output.push v := by
  simp [write, output]

end Console

end HotPath
