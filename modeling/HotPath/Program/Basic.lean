/-
  HotPath.Program.Basic

  Programs: functions that pass every check, with their facts. The checks and
  the facts are part of the type, so whatever holds a `Program` may rely on
  them.
-/
import HotPath.Program.Facts

namespace HotPath

/-- A checked program. -/
structure Program where
  functions : Array Function
  entry : FuncId
  facts : Facts
  faultless : Function.listFault? functions entry = none
  facts_eq : facts = Facts.ofFunctions functions

namespace Program

/-- Checks a list of functions with an entry. -/
def ofFunctions (functions : Array Function) (entry : FuncId) : Except Fault Program :=
  match h : Function.listFault? functions entry with
  | some cause => .error (.program cause)
  | none => .ok ⟨functions, entry, Facts.ofFunctions functions, h, rfl⟩

/-- A program of one function. -/
def single (f : Function) : Except Fault Program :=
  ofFunctions #[f] 0

/-- A program is its functions and its entry; the facts follow. -/
@[ext] theorem ext {p q : Program} (hf : p.functions = q.functions) (he : p.entry = q.entry) :
    p = q := by
  obtain ⟨pf, pe, pt, _, hp⟩ := p
  obtain ⟨qf, qe, qt, _, hq⟩ := q
  simp only at hf he
  subst hf he
  subst hp hq
  rfl

theorem ofFunctions_self (p : Program) : ofFunctions p.functions p.entry = .ok p := by
  unfold ofFunctions
  split
  · next h => simp [p.faultless] at h
  · exact congrArg Except.ok (ext rfl rfl)

/-! ## Queries -/

/-- The instruction at an address. -/
def instr? (p : Program) (loc : Location) : Option Instr :=
  (p.functions[loc.func]?).bind (fun f => f.code[loc.pc]?)

/-- The greens of the merge point at an address; none if there is none. -/
def greens (p : Program) (loc : Location) : List Reg :=
  match p.instr? loc with
  | some (.mergePoint greens) => greens
  | _ => []

/-- Whether a backward jump reaches the merge point at an address. -/
def isLoopHeader (p : Program) (loc : Location) : Bool :=
  Facts.lookup p.facts.loopHeaders loc

/-- Whether calling a function can read input or print. -/
def hasEffects (p : Program) (func : FuncId) : Bool :=
  p.facts.effectful.getD func false

/-- Whether execution changes hands at an address. With `headersOnly`, merge
points that are no loop headers do nothing. -/
def isDispatchPoint (p : Program) (headersOnly : Bool) (loc : Location) : Bool :=
  (match p.instr? loc with
    | some i => i.isMergePoint
    | none => false) &&
  (!headersOnly || p.isLoopHeader loc)

/-- Whether the split at an address has an arm that allocates. -/
def isAllocatingSplit (p : Program) (loc : Location) : Bool :=
  Facts.lookup p.facts.allocatingSplits loc

/-! ## Listing -/

/-- A position with at least four digits. -/
def pcText (pc : Nat) : String :=
  let digits := toString pc
  "".pushn '0' (4 - digits.length) ++ digits

/-- One line of a listing; a star marks loop headers. -/
def lineText (p : Program) (loc : Location) (i : Instr) : String :=
  (if p.isLoopHeader loc then "*" else " ") ++ pcText loc.pc ++ " " ++ i.text ++ "\n"

/-- The listing of one function. -/
def functionText (p : Program) (k : FuncId) (f : Function) : String :=
  s!"== f{k} {f.name} (params: {f.params}, registers: {f.registers}) ==\n" ++
    String.join (f.code.toList.zipIdx.map (fun q => p.lineText ⟨k, q.2⟩ q.1))

/-- The listing of the whole program. -/
def listing (p : Program) : String :=
  String.join (p.functions.toList.zipIdx.map (fun q => p.functionText q.2 q.1))

end Program

end HotPath
