/-
  HotPath.Program.Facts

  Static facts about a list of functions, computed once:

    * the merge points that a backward jump reaches (loop headers);
    * the functions that read input or print, themselves or through calls;
    * the splits with an arm that allocates before the arms meet again.
-/
import HotPath.Program.Function
import HotPath.Table.Basic

namespace HotPath

/-! ## Loop headers -/

/-- Whether the instruction at `pc` jumps back to `target`. -/
def Instr.jumpsBack (i : Instr) (pc target : Nat) : Bool :=
  match i with
  | .jump t => t == target && decide (t ≤ pc)
  | .branch _ e _ => e == target && decide (e ≤ pc)
  | _ => false

/-- Whether there is a merge point at `pc` that a backward jump reaches. -/
def Function.isLoopHeader (f : Function) (pc : Nat) : Bool :=
  (match f.code[pc]? with
    | some i => i.isMergePoint
    | none => false) &&
  f.code.toList.zipIdx.any (fun p => p.1.jumpsBack p.2 pc)

/-! ## Effects -/

/-- Whether the instruction itself reads input or prints. -/
def Instr.isIo : Instr → Bool
  | .input _ | .print _ => true
  | _ => false

/-- Whether the instruction calls a marked function. -/
def Instr.callsMarked (marks : Array Bool) : Instr → Bool
  | .call _ func _ => marks.getD func false
  | _ => false

namespace Effects

/-- Marks the functions that read input or print themselves. -/
def direct (functions : Array Function) : Array Bool :=
  functions.map (fun f => f.code.any Instr.isIo)

/-- Marks also every function that calls a marked one. -/
def spread (functions : Array Function) (marks : Array Bool) : Array Bool :=
  functions.mapIdx (fun k f => marks.getD k false || f.code.any (Instr.callsMarked marks))

/-- Spreads the marks until nothing changes, at most `n` times. -/
def close (functions : Array Function) : Nat → Array Bool → Array Bool
  | 0, marks => marks
  | n + 1, marks =>
    let wider := spread functions marks
    if wider = marks then marks else close functions n wider

/-- The functions that read input or print, themselves or through calls. Each
round that changes anything marks one function more, so as many rounds as there
are functions are enough. -/
def marks (functions : Array Function) : Array Bool :=
  close functions functions.size (direct functions)

end Effects

/-! ## Allocating splits -/

/-- Looks for an allocation from the places in `work`, not past the join, a
merge point or a return, and not twice at any place. Every place looked at adds
at most two more, which bounds the `fuel` that a search takes. -/
def Function.reachesAlloc (f : Function) (join : Option Nat) :
    (fuel : Nat) → (visited : KeySet Nat) → (work : List Nat) → Bool
  | 0, _, _ => false
  | _ + 1, _, [] => false
  | n + 1, visited, pc :: work =>
    if join = some pc || visited.contains pc then
      f.reachesAlloc join n visited work
    else
      match f.code[pc]? with
      | none => f.reachesAlloc join n (visited.add pc) work
      | some (.alloc ..) => true
      | some (.mergePoint _) => f.reachesAlloc join n (visited.add pc) work
      | some (.ret _) => f.reachesAlloc join n (visited.add pc) work
      | some i => f.reachesAlloc join n (visited.add pc) (i.successors pc ++ work)

/-- Whether an arm of the split at `pc` allocates before the join, a merge
point or a return. -/
def Function.armsAllocate (f : Function) (pc elsePc : Nat) (join : Option Nat) : Bool :=
  f.reachesAlloc join (3 * f.code.size + 6) {} [elsePc, pc + 1]

/-- Whether there is a split at `pc` with an arm that allocates. -/
def Function.isAllocatingSplit (f : Function) (pc : Nat) : Bool :=
  match f.code[pc]? with
  | some (.branch _ elsePc join) => f.armsAllocate pc elsePc join
  | _ => false

/-! ## All facts -/

/-- The static facts of a program; the outer arrays go by function and the
inner ones by position. -/
structure Facts where
  loopHeaders : Array (Array Bool)
  effectful : Array Bool
  allocatingSplits : Array (Array Bool)

namespace Facts

/-- Evaluates a test at every position of a function. -/
def tabulate (f : Function) (test : Nat → Bool) : Array Bool :=
  ((List.range f.code.size).map test).toArray

/-- Computes the facts of a list of functions. -/
def ofFunctions (functions : Array Function) : Facts where
  loopHeaders := functions.map (fun f => tabulate f f.isLoopHeader)
  effectful := Effects.marks functions
  allocatingSplits := functions.map (fun f => tabulate f f.isAllocatingSplit)

/-- Looks up a table by address. -/
def lookup (table : Array (Array Bool)) (loc : Location) : Bool :=
  ((table[loc.func]?).bind (fun row => row[loc.pc]?)).getD false

end Facts

end HotPath
