/-
  HotPath.Program.Function

  Functions and the checks a list of them has to pass to be a program. Checks
  are written as the first fault found, so that "no fault" says that every
  single check holds.
-/
import HotPath.Fault

namespace HotPath

/-- A function: its frame and its code. -/
structure Function where
  name : String
  /-- The registers that hold the arguments of a call. -/
  params : Nat := 0
  registers : Nat
  code : Array Instr
  deriving DecidableEq

namespace Function

/-- The first register of an instruction that the frame does not have. -/
def registerFault? (f : Function) (loc : Location) (i : Instr) : Option ProgramFault :=
  (i.reads ++ i.writes.toList).findSome? (fun r =>
    if f.registers ≤ r then some (.badRegister f.name r i loc) else none)

/-- The first successor of an instruction that is not in the code. -/
def targetFault? (f : Function) (loc : Location) (i : Instr) : Option ProgramFault :=
  (i.successors loc.pc).findSome? (fun t =>
    if f.code.size ≤ t then some (.badTarget f.name t loc) else none)

/-- A join outside the code, or a call that does not fit its callee. -/
def operandFault? (f : Function) (functions : Array Function) (loc : Location) (i : Instr) :
    Option ProgramFault :=
  match i with
  | .branch _ _ (some join) =>
    if f.code.size ≤ join then some (.badJoin f.name join loc) else none
  | .call _ func args =>
    match functions[func]? with
    | none => some (.unknownCallee f.name func loc)
    | some callee =>
      if callee.params = args.length then none
      else some (.arity f.name func callee.params args.length loc)
  | _ => none

/-- The first fault of one instruction. -/
def instrFault? (f : Function) (functions : Array Function) (loc : Location) (i : Instr) :
    Option ProgramFault :=
  ((f.registerFault? loc i).or (f.targetFault? loc i)).or (f.operandFault? functions loc i)

/-- The first fault of the frame and the shape of the body. A position in a body is a word;
lists are unbounded, so `tooLong` stands here for the width of a position, and is no check
that a body in a file could fail. -/
def shapeFault? (f : Function) : Option ProgramFault :=
  if Word.max < f.code.size then some (.tooLong f.name f.code.size)
  else if Reg.limit < f.registers then some (.tooManyRegisters f.name f.registers)
  else if f.registers < f.params then some (.tooManyParams f.name f.params f.registers)
  else match f.code.back? with
    | none => some (.emptyBody f.name)
    | some last => if last.fallsThrough then some (.fallsOff f.name last) else none

/-- The first fault of a function at a position of the list. -/
def fault? (f : Function) (functions : Array Function) (index : FuncId) : Option ProgramFault :=
  f.shapeFault?.or
    (f.code.toList.zipIdx.findSome? (fun p => f.instrFault? functions ⟨index, p.2⟩ p.1))

end Function

/-- The first fault of a list of functions with an entry. Functions are numbered by words of
half the width; `tooManyFunctions` stands for this width in the same way. -/
def Function.listFault? (functions : Array Function) (entry : FuncId) : Option ProgramFault :=
  if functions.size ≤ entry then some (.noEntry entry)
  else if Word.max32 + 1 < functions.size then some (.tooManyFunctions functions.size)
  else functions.toList.zipIdx.findSome? (fun p => p.1.fault? functions p.2)

end HotPath
