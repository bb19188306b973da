/-
  HotPath.Cli.Run

  What commands do, given the files they name.
-/
import HotPath.Cli.Directory
import HotPath.Cli.Options
import HotPath.Codec.Policy
import HotPath.Codec.Program
import HotPath.Engine.Trial

namespace HotPath.Cli

/-- What a command leaves: its exit code and what it writes. -/
structure Reply where
  exit : Nat
  stdout : String
  stderr : String
  deriving DecidableEq

/-- Why a command failed. -/
inductive Failure where
  | fault (cause : Fault)
  | load (what path : String) (cause : Fault)
  /-- A run with specialization differed from one without. -/
  | differ (comparison : Comparison)
  /-- The allowance ran out. -/
  | starved

/-- A result as text. -/
def resultText : Except Fault Value → String
  | .ok v => s!"Ok(\"{v.text}\")"
  | .error (.runtime e) =>
    s!"Err(Runtime \x7b kind: {e.kindName}, message: \"{e.detail}\" \x7d)"
  | .error e => s!"Err({e.message})"

/-- The text of a failure. -/
def Failure.text : Failure → String
  | .fault e => e.chain
  | .load what path e => s!"cannot load {what} '{path}': {e.chain}"
  | .differ c =>
    s!"executions differ: interpreted {resultText c.interpreted.result} with " ++
    s!"{c.interpreted.output.size} outputs, specialized {resultText c.specialized.result} with " ++
    s!"{c.specialized.output.size} outputs"
  | .starved => "the run did not end"

/-- The files that a command can see. -/
abbrev Files := String → Except FileFault String

/-- Loads something from a file. -/
def load {α : Type} (files : Files) (what : String) (ofText : String → Except Fault α)
    (path : String) : Except Failure α :=
  match files path with
  | .error e => .error (.load what path (.io e))
  | .ok s =>
    match ofText s with
    | .error e => .error (.load what path e)
    | .ok a => .ok a

namespace Options

/-- The policy that options ask for. -/
def policy (o : Options) (files : Files) : Except Failure Policy := do
  let base ← match o.config with
    | some path => load files "config" Policy.ofText path
    | none => .ok {}
  let hot := match o.threshold with
    | some n => base.withThreshold n
    | none => base
  let p := if o.noJit then { hot with enabled := false } else hot
  match p.validate with
  | .ok _ => .ok p
  | .error e => .error (.fault e)

/-- The input that options give. -/
def values (o : Options) : List Value := o.input.map Value.int

end Options

/-- Runs a program: what it printed, then its result. -/
def runProgram (fuel : Nat) (files : Files) (file : String) (o : Options) :
    Except Failure Reply := do
  let program ← load files "program" Program.ofText file
  let policy ← o.policy files
  let engine ← (Engine.ofPolicy program { policy with recordEvents := o.events }).mapError .fault
  match Trial.run? fuel engine o.values with
  | none => .error .starved
  | some trial =>
    match trial.result with
    | .error e => .error (.fault e)
    | .ok v =>
      let d := trial.desk
      let printed := String.join (trial.output.toList.map (fun x => x.text ++ "\n"))
      let events := String.join (d.engine.events.toList.map (fun t => t.text ++ "\n"))
      let stats :=
        d.engine.stats.summary ++ s!"Installed merge point units: {d.store.mergePoints.size}\n"
      return {
        exit := 0
        stdout := printed ++ s!"=> {v.text}\n"
        stderr := (if o.events then events else "") ++ (if o.stats then stats else "") }

/-- Lists a program. -/
def listProgram (files : Files) (file : String) : Except Failure Reply := do
  let program ← load files "program" Program.ofText file
  return ⟨0, program.listing, ""⟩

/-- Runs a program with and without specialization, and checks that both agree. -/
def compareProgram (fuel : Nat) (files : Files) (file : String) (o : Options) :
    Except Failure Reply := do
  let program ← load files "program" Program.ofText file
  let policy ← o.policy files
  match ← (Comparison.run? fuel program policy o.values).mapError .fault with
  | none => .error .starved
  | some c =>
    if c.interpreted.agrees c.specialized then
      let outputs := c.specialized.output.size
      let units := c.specialized.desk.engine.stats.unitsCompiled
      return ⟨0, s!"identical: {outputs} outputs, {units} units compiled\n", ""⟩
    else .error (.differ c)

/-- Carries out a command. -/
def Command.perform (c : Command) (fuel : Nat) (files : Files) : Reply :=
  let result := match c.verb with
    | .run => runProgram fuel files c.file c.options
    | .disasm => listProgram files c.file
    | .compare => compareProgram fuel files c.file c.options
  match result with
  | .ok reply => reply
  | .error e => ⟨1, "", s!"Error: {e.text}\n"⟩

/-- A reminder of the commands. -/
def synopsis : String :=
  "Commands:\n" ++
  "  run FILE      run a program\n" ++
  "  disasm FILE   print a program's instructions\n" ++
  "  compare FILE  run a program with and without specialization\n" ++
  "Options: -i/--input N,... -c/--config FILE -t/--threshold N --no-jit\n" ++
  "         --stats --events -p/--profile -v/--verbose -h/--help\n"

/-- The reply to a command line that is not carried out. -/
def Stop.reply : Stop → Reply
  | .usage => ⟨2, "", synopsis⟩
  | .help => ⟨0, synopsis, ""⟩

/-- Carries out a command line. -/
def reply (fuel : Nat) (files : Files) (args : List String) : Reply :=
  match Command.ofArgs args with
  | .ok c => c.perform fuel files
  | .error stop => stop.reply

end HotPath.Cli
