/-
  HotPath.Cli.Options

  Command lines. Arguments are read from left to right; options may stand
  before and after the file, values may be attached to options, and single
  letters may be joined. After `--` there are only file names.
-/
import HotPath.Value.Basic
import HotPath.Location

namespace HotPath.Cli

/-- What to do with a program. -/
inductive Verb where
  | run
  | disasm
  | compare
  deriving DecidableEq

/-- An option by its meaning. -/
inductive Switch where
  | input
  | config
  | threshold
  | noJit
  | stats
  | events
  | profile
  | verbose
  | help
  | version
  deriving DecidableEq

/-- What a command line asks for. -/
structure Options where
  /-- Input values, in order. -/
  input : List Int64 := []
  config : Option String := none
  threshold : Option Nat := none
  noJit : Bool := false
  stats : Bool := false
  events : Bool := false
  profile : Bool := false
  deriving DecidableEq

/-- A complete command line. -/
structure Command where
  verb : Verb
  file : String
  options : Options
  deriving DecidableEq

/-- Why no command is run. -/
inductive Stop where
  /-- The command line cannot be understood. -/
  | usage
  /-- Only information was asked for. -/
  | help
  deriving DecidableEq

/-- The verb of a name. -/
def Verb.ofName? : String → Option Verb
  | "run" => some .run
  | "disasm" => some .disasm
  | "compare" => some .compare
  | _ => none

namespace Switch

/-- Whether an option is followed by a value. -/
def takesValue : Switch → Bool
  | .input | .config | .threshold => true
  | _ => false

/-- Whether the value of an option may begin with a dash. -/
def takesDash : Switch → Bool
  | .input => true
  | _ => false

/-- Whether an option goes with a verb; those for all can stand before it. -/
def isFor : Switch → Option Verb → Bool
  | .verbose, _ | .help, _ => true
  | .version, v => v == none
  | .stats, v | .events, v | .profile, v => v == some .run
  | _, v => v == some .run || v == some .compare

/-- All options by their long names. -/
def named? : String → Option Switch
  | "input" => some .input
  | "config" => some .config
  | "threshold" => some .threshold
  | "no-jit" => some .noJit
  | "stats" => some .stats
  | "events" => some .events
  | "profile" => some .profile
  | "verbose" => some .verbose
  | "help" => some .help
  | "version" => some .version
  | _ => none

/-- All options by their letters. -/
def lettered? : Char → Option Switch
  | 'i' => some .input
  | 'c' => some .config
  | 't' => some .threshold
  | 'p' => some .profile
  | 'v' => some .verbose
  | 'h' => some .help
  | 'V' => some .version
  | _ => none

/-- The option of a long name. -/
def ofLong? (verb : Option Verb) (name : String) : Option Switch :=
  (named? name).filter (fun s => s.isFor verb)

/-- The option of a letter. -/
def ofShort? (verb : Option Verb) (c : Char) : Option Switch :=
  (lettered? c).filter (fun s => s.isFor verb)

end Switch

/-! ## Values -/

/-- A number in decimal digits, of which there must be one. -/
def digits? (cs : List Char) : Option Nat :=
  if !cs.isEmpty && cs.all Char.isDigit then
    some (cs.foldl (fun n c => 10 * n + (c.toNat - '0'.toNat)) 0)
  else none

/-- A word, with or without a plus. -/
def word? (s : String) : Option Nat :=
  (match s.toList with
    | '+' :: cs => digits? cs
    | cs => digits? cs).filter (fun n => decide (n ≤ Word.max))

/-- A signed word, with or without a sign. -/
def int? (s : String) : Option Int64 :=
  match s.toList with
  | '-' :: cs => ((digits? cs).filter (fun n => decide (n ≤ Word.half))).map (fun n => Int64.ofInt (-n))
  | '+' :: cs => ((digits? cs).filter (fun n => decide (n < Word.half))).map (fun n => Int64.ofNat n)
  | cs => ((digits? cs).filter (fun n => decide (n < Word.half))).map (fun n => Int64.ofNat n)

/-! ## Reading -/

/-- How far a command line is read. -/
structure Reading where
  verb : Option Verb := none
  file : Option String := none
  options : Options := {}
  /-- The option that waits for its value. -/
  awaiting : Option Switch := none
  /-- Only file names follow. -/
  onlyFiles : Bool := false
  /-- Help was asked for, and on what. -/
  topics : Option (List String) := none

namespace Reading

/-- Sets what must not be set twice. -/
def once (isSet : Bool) (r : Reading) : Except Stop Reading :=
  if isSet then .error .usage else .ok r

/-- Takes an option without a value. -/
def turnOn (r : Reading) (s : Switch) : Except Stop Reading :=
  let o := r.options
  match s with
  | .noJit => once o.noJit { r with options := { o with noJit := true } }
  | .stats => once o.stats { r with options := { o with stats := true } }
  | .events => once o.events { r with options := { o with events := true } }
  | .profile => once o.profile { r with options := { o with profile := true } }
  | .help | .version => .error .help
  | _ => .ok r

/-- Takes the value of an option. -/
def takeValue (r : Reading) (s : Switch) (v : String) : Except Stop Reading :=
  let o := r.options
  let r := { r with awaiting := none }
  match s with
  | .input =>
    match (v.splitOn ",").mapM int? with
    | some xs => .ok { r with options := { o with input := o.input ++ xs } }
    | none => .error .usage
  | .config =>
    if v.isEmpty then .error .usage
    else once o.config.isSome { r with options := { o with config := some v } }
  | .threshold =>
    match word? v with
    | some n => once o.threshold.isSome { r with options := { o with threshold := some n } }
    | none => .error .usage
  | _ => .error .usage

/-- Takes a long option, with the value attached to it if there is one. -/
def takeLong (r : Reading) (name : String) (attached : Option String) : Except Stop Reading :=
  match Switch.ofLong? r.verb name, attached with
  | none, _ => .error .usage
  | some s, some v => if s.takesValue then r.takeValue s v else .error .usage
  | some s, none => if s.takesValue then .ok { r with awaiting := some s } else r.turnOn s

/-- The value attached to a letter: what follows it, without an equals sign. -/
def attachedValue : List Char → Option String
  | [] => none
  | '=' :: cs => some (String.ofList cs)
  | cs => some (String.ofList cs)

/-- Takes joined letters. -/
def takeShort (r : Reading) : List Char → Except Stop Reading
  | [] => .ok r
  | c :: cs =>
    match Switch.ofShort? r.verb c with
    | none => .error .usage
    | some s =>
      if s.takesValue then
        match attachedValue cs with
        | some v => r.takeValue s v
        | none => .ok { r with awaiting := some s }
      else
        match r.turnOn s with
        | .ok r => r.takeShort cs
        | .error e => .error e

/-- Takes a verb or a file name. -/
def takeName (r : Reading) (arg : String) : Except Stop Reading :=
  match r.verb, r.file with
  | none, _ =>
    match Verb.ofName? arg with
    | some v => .ok { r with verb := some v }
    | none => if arg = "help" then .ok { r with topics := some [] } else .error .usage
  | some _, none => if arg.isEmpty then .error .usage else .ok { r with file := some arg }
  | some _, some _ => .error .usage

/-- Whether an argument is written as an option. -/
def isDashed : List Char → Bool
  | '-' :: _ :: _ => true
  | _ => false

/-- Takes an argument that is no value. -/
def takePlain (r : Reading) (arg : String) : Except Stop Reading :=
  match arg.toList with
  | ['-', '-'] => if r.verb.isNone then .error .usage else .ok { r with onlyFiles := true }
  | '-' :: '-' :: cs =>
    match cs.span (fun c => c != '=') with
    | (name, []) => r.takeLong (String.ofList name) none
    | (name, _ :: v) => r.takeLong (String.ofList name) (some (String.ofList v))
  | '-' :: c :: cs => r.takeShort (c :: cs)
  | _ => r.takeName arg

/-- Takes one argument. Whatever follows a request for help is a topic. -/
def take (r : Reading) (arg : String) : Except Stop Reading :=
  match r.topics with
  | some ts => .ok { r with topics := some (ts ++ [arg]) }
  | none =>
    if r.onlyFiles then r.takeName arg
    else match r.awaiting with
      | some s =>
        if isDashed arg.toList && !s.takesDash then .error .usage else r.takeValue s arg
      | none => r.takePlain arg

/-- How a request for help ends: there is help in general and on each command,
that for help included. -/
def helpOn : List String → Stop
  | [] => .help
  | [topic] => if topic = "help" ∨ (Verb.ofName? topic).isSome then .help else .usage
  | _ => .usage

/-- The command, if nothing is missing. -/
def finish (r : Reading) : Except Stop Command :=
  match r.topics with
  | some ts => .error (helpOn ts)
  | none =>
    match r.awaiting, r.verb, r.file with
    | none, some verb, some file => .ok ⟨verb, file, r.options⟩
    | _, _, _ => .error .usage

end Reading

/-- Reads a command line. -/
def Command.ofArgs (args : List String) : Except Stop Command :=
  match args.foldlM Reading.take {} with
  | .ok r => r.finish
  | .error e => .error e

end HotPath.Cli
