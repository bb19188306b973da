/-
  HotPath.Program.Assembler

  Building a function step by step, with labels that may be bound after they
  are used. A jump or a branch to a label is emitted with a placeholder and
  patched when the function is finished.
-/
import HotPath.Program.Function

namespace HotPath

/-- Which operand of an instruction waits for a label. -/
inductive Assembler.Patch where
  | target
  | elseArm
  | join
  deriving DecidableEq

/-- An operand that waits for a label. -/
structure Assembler.Fixup where
  pc : Nat
  label : Nat
  patch : Assembler.Patch
  deriving DecidableEq

/-- A function in the making. -/
structure Assembler where
  name : String
  params : Nat := 0
  /-- The number of registers, if it was asked for. -/
  reserved : Option Nat := none
  /-- The highest register that is used. -/
  highest : Option Reg := none
  code : Array Instr := #[]
  /-- Where each label is bound. -/
  labels : Array (Option Nat) := #[]
  fixups : Array Assembler.Fixup := #[]

/-- One step of building a function. -/
inductive Assembler.Step where
  | params (n : Nat)
  | registers (n : Nat)
  | newLabel
  | bind (label : Nat)
  | emit (instr : Instr)
  | jump (label : Nat)
  | branch (cond : Reg) (elseArm : Nat) (join : Option Nat)

namespace Assembler

/-- Stands for a position that is not known yet. -/
def placeholder : Nat := Word.max

/-- The position of the next instruction. -/
def here (a : Assembler) : Nat := a.code.size

/-- Notes that a register is used. -/
def touch (a : Assembler) (r : Reg) : Assembler :=
  { a with highest := some (match a.highest with
      | none => r
      | some h => max h r) }

/-- Appends an instruction. -/
def emit (a : Assembler) (i : Instr) : Assembler :=
  let a := (i.reads ++ i.writes.toList).foldl touch a
  { a with code := a.code.push i }

/-- Sets the number of parameters, which take the first registers. -/
def setParams (a : Assembler) (n : Nat) : Assembler :=
  let a := { a with params := n }
  if 0 < n then a.touch (n - 1) else a

/-- Makes a label that is not bound yet. -/
def newLabel (a : Assembler) : Assembler :=
  { a with labels := a.labels.push none }

/-- Binds a label to the next instruction. -/
def bind (a : Assembler) (label : Nat) : Except Fault Assembler :=
  if label < a.labels.size then
    .ok { a with labels := a.labels.setIfInBounds label (some a.here) }
  else .error .outOfRange

/-- Notes an operand of the next instruction that waits for a label. -/
def await (a : Assembler) (label : Nat) (patch : Patch) : Assembler :=
  { a with fixups := a.fixups.push ⟨a.here, label, patch⟩ }

/-- Jumps to a label. -/
def jump (a : Assembler) (label : Nat) : Assembler :=
  (a.await label .target).emit (.jump placeholder)

/-- Branches to a label if the condition is false. -/
def branch (a : Assembler) (cond : Reg) (elseArm : Nat) (join : Option Nat) : Assembler :=
  let a := a.await elseArm .elseArm
  let a := match join with
    | some label => a.await label .join
    | none => a
  a.emit (.branch cond placeholder (join.map (fun _ => placeholder)))

/-- Takes one step. -/
def step (a : Assembler) : Step → Except Fault Assembler
  | .params n => .ok (a.setParams n)
  | .registers n => .ok { a with reserved := some n }
  | .newLabel => .ok a.newLabel
  | .bind label => a.bind label
  | .emit i => .ok (a.emit i)
  | .jump label => .ok (a.jump label)
  | .branch cond elseArm join => .ok (a.branch cond elseArm join)

/-- Takes steps in order. -/
def run (a : Assembler) : List Step → Except Fault Assembler
  | [] => .ok a
  | s :: ss =>
    match a.step s with
    | .ok b => b.run ss
    | .error e => .error e

/-! ## Finishing -/

/-- Puts a position into an operand, if the instruction has that operand. -/
def Patch.apply? (p : Patch) (i : Instr) (pc : Nat) : Option Instr :=
  match p, i with
  | .target, .jump _ => some (.jump pc)
  | .elseArm, .branch cond _ meet => some (.branch cond pc meet)
  | .join, .branch cond elsePc (some _) => some (.branch cond elsePc (some pc))
  | _, _ => none

/-- Patches one operand. -/
def resolve (a : Assembler) (code : Array Instr) (x : Fixup) : Except Fault (Array Instr) :=
  match a.labels[x.label]? with
  | none => .error .outOfRange
  | some none => .error (.program (.unboundLabel a.name x.label))
  | some (some pc) =>
    match code[x.pc]? with
    | none => .error .outOfRange
    | some i =>
      match x.patch.apply? i pc with
      | some j => .ok (code.setIfInBounds x.pc j)
      | none => .error (.program (.unpatchable a.name i))

/-- Patches operands in order. -/
def resolveAll (a : Assembler) : Array Instr → List Fixup → Except Fault (Array Instr)
  | code, [] => .ok code
  | code, x :: xs =>
    match a.resolve code x with
    | .ok code => a.resolveAll code xs
    | .error e => .error e

/-- The number of registers that the code and the parameters use. -/
def inferred (a : Assembler) : Nat :=
  match a.highest with
  | some r => r + 1
  | none => 0

/-- The number of registers of the function: what was asked for, if it covers
what is used, or what is used, but at least one. -/
def frameSize (a : Assembler) : Except Fault Nat :=
  match a.reserved with
  | some n =>
    if n < a.inferred then .error (.program (.reserved a.name n (a.inferred - 1))) else .ok n
  | none => .ok (max a.inferred 1)

/-- The finished function. -/
def build (a : Assembler) : Except Fault Function :=
  match a.resolveAll a.code a.fixups.toList with
  | .error e => .error e
  | .ok code =>
    match a.frameSize with
    | .error e => .error e
    | .ok n =>
      if Reg.limit < n then .error (.program (.tooManyRegisters a.name n))
      else .ok { name := a.name, params := a.params, registers := n, code := code }

end Assembler

end HotPath
