/-
  HotPath.Fault

  Everything that can go wrong, by cause. `Fault.message` holds all wording.

  A `Breach` is different in kind from the other faults: it says that a caller
  asked for something outside the widths and ranges the engine works with, or
  moved the engine between phases that do not follow each other. No engine
  policy reacts to a breach.
-/
import HotPath.Instr.Basic
import HotPath.Policy

namespace HotPath

/-- A malformed program, or a request that does not fit the program. -/
inductive ProgramFault where
  | noEntry (entry : FuncId)
  | tooManyFunctions (count : Nat)
  | tooLong (name : String) (length : Nat)
  | tooManyRegisters (name : String) (registers : Nat)
  | tooManyParams (name : String) (params registers : Nat)
  | emptyBody (name : String)
  | fallsOff (name : String) (last : Instr)
  | badRegister (name : String) (reg : Reg) (instr : Instr) (loc : Location)
  | badTarget (name : String) (target : Nat) (loc : Location)
  | badJoin (name : String) (join : Nat) (loc : Location)
  | unknownCallee (name : String) (func : FuncId) (loc : Location)
  | arity (name : String) (func : FuncId) (params args : Nat) (loc : Location)
  | unboundLabel (name : String) (label : Nat)
  | unpatchable (name : String) (instr : Instr)
  | reserved (name : String) (registers : Nat) (used : Reg)
  | unknownFunction (func : FuncId)
  | frameSize (loc : Location) (size : Nat) (name : String) (registers : Nat)
  | noInstr (loc : Location)
  | unitFrame (entry : Location) (size registers : Nat)
  | unitRanPast (entry : Location)
  | regionRanOff (loc : Location)
  | noReturn (loc : Location)
  deriving DecidableEq

/-- Two walks of a region that should have met, and did not. -/
inductive MergeFault where
  | armsApart (thenLoc elseLoc : Location) (thenRegs elseRegs : Nat)
  | strayJoin (entry : Location)
  deriving DecidableEq

/-- Why a file cannot be read. -/
inductive FileFault where
  | missing
  | denied
  /-- A path goes on after a file. -/
  | notDirectory
  | isDirectory
  | nameTooLong
  /-- Its bytes are no text. -/
  | notText
  | other (text : String)
  deriving DecidableEq

/-- A request outside what the engine can represent. -/
inductive Breach where
  | overflow
  | outOfRange
  | illegalTransition
  deriving DecidableEq

/-- Everything that can go wrong. -/
inductive Fault where
  | runtime (cause : RuntimeFault)
  | program (cause : ProgramFault)
  | mergeIncompatible (cause : MergeFault)
  /-- An instruction needs a capability that its executor lacks. -/
  | gap (missing : Capability) (loc : Location)
  | policy (setting : Setting)
  | io (cause : FileFault)
  | json
  | breach (cause : Breach)
  deriving DecidableEq

/-- What went wrong with a program. -/
def ProgramFault.detail : ProgramFault → String
  | .noEntry entry => s!"entry function f{entry} does not exist"
  | .tooManyFunctions count =>
    s!"{count} functions exceeds the limit of {Word.max32 + 1}"
  | .tooLong name length => s!"{name}: {length} instructions exceeds the limit of {Word.max}"
  | .tooManyRegisters name registers =>
    s!"{name}: {registers} registers exceeds the limit of {Reg.limit}"
  | .tooManyParams name params registers =>
    s!"{name}: {params} parameters but only {registers} registers"
  | .emptyBody name => s!"{name}: empty function body"
  | .fallsOff name last => s!"{name}: control falls off the end after `{last.text}`"
  | .badRegister name reg instr loc =>
    s!"{name}: r{reg} out of range in `{instr.text}` at {loc.text}"
  | .badTarget name target loc => s!"{name}: jump target {target} out of range at {loc.text}"
  | .badJoin name join loc => s!"{name}: join {join} out of range at {loc.text}"
  | .unknownCallee name func loc => s!"{name}: call to unknown f{func} at {loc.text}"
  | .arity name func params args loc =>
    s!"{name}: f{func} expects {params} arguments, got {args} at {loc.text}"
  | .unboundLabel name label => s!"{name}: label {label} referenced but never bound"
  | .unpatchable name instr => s!"{name}: cannot patch label into `{instr.text}`"
  | .reserved name registers used =>
    s!"{name}: {registers} registers reserved but r{used} is used"
  | .unknownFunction func => s!"unknown function f{func}"
  | .frameSize loc size name registers =>
    s!"resume at {loc.text} with {size} bindings, {name} expects {registers}"
  | .noInstr loc => s!"no instruction at {loc.text}"
  | .unitFrame entry size registers =>
    s!"unit at {entry.text} entered with {size} bindings, expected {registers}"
  | .unitRanPast entry => s!"unit at {entry.text} ran past its last op"
  | .regionRanOff loc => s!"specializer ran off the code at {loc.text}"
  | .noReturn loc => s!"run ended at {loc.text} without returning"

/-- Why two walks did not meet. -/
def MergeFault.detail : MergeFault → String
  | .armsApart thenLoc elseLoc thenRegs elseRegs =>
    s!"arms stopped at {thenLoc.text} and {elseLoc.text} with {thenRegs} and {elseRegs} registers"
  | .strayJoin entry => s!"region from {entry.text} stopped at a join outside any split"

/-- Why a file cannot be read, in the words of the operating system. -/
def FileFault.detail : FileFault → String
  | .missing => "No such file or directory (os error 2)"
  | .denied => "Permission denied (os error 13)"
  | .notDirectory => "Not a directory (os error 20)"
  | .isDirectory => "Is a directory (os error 21)"
  | .nameTooLong => "File name too long (os error 36)"
  | .notText => "stream did not contain valid UTF-8"
  | .other text => text

namespace Breach

/-- What was asked for. -/
def detail : Breach → String
  | .overflow => "arithmetic overflow"
  | .outOfRange => "index out of range"
  | .illegalTransition => "illegal phase change"

end Breach

namespace Fault

/-- The full text of a fault. -/
def message : Fault → String
  | .runtime cause => s!"{cause.kindName}: {cause.detail}"
  | .program cause => s!"ProgramError: {cause.detail}"
  | .mergeIncompatible cause => s!"MergeIncompatible: {cause.detail}"
  | .gap missing loc => s!"FallbackGap: missing capability {missing.name} at {loc.text}"
  | .policy setting => s!"ConfigError: {setting.name} must be at least 1"
  | .io cause => s!"IOError: {cause.detail}"
  | .json => "JsonError: malformed document"
  | .breach cause => s!"Breach: {cause.detail}"

/-- The text of a fault followed by that of its own cause, which for faults of
files and documents is not the engine's and is given again. -/
def chain : Fault → String
  | .io cause => s!"{message (.io cause)}: {cause.detail}"
  | .json => s!"{message .json}: malformed document"
  | e => e.message

/-- Faults that show the engine inconsistent with itself, after which nothing
more is specialized. -/
def isFatal : Fault → Bool
  | .mergeIncompatible _ | .gap .. => true
  | _ => false

/-- A number left its width. -/
def overflow : Fault := .breach .overflow

/-- An index left its range. -/
def outOfRange : Fault := .breach .outOfRange

end Fault

/-- A number that has to stay inside its width. -/
def inWidth {α : Type} : Option α → Except Fault α
  | some a => .ok a
  | none => .error .overflow

/-- What an index finds, if it is inside its range. -/
def inRange {α : Type} : Option α → Except Fault α
  | some a => .ok a
  | none => .error .outOfRange

/-- A policy, if all of its settings can be used. -/
def Policy.validate (p : Policy) : Except Fault Unit :=
  match p.zeroSetting? with
  | some s => .error (.policy s)
  | none => .ok ()

end HotPath
