/-
  HotPath.Region.Basic

  A region while it is specialized: where the walk stands, what is known about
  every register there, and the operations that the walk has left behind.
-/
import HotPath.Trace.Basic

namespace HotPath

/-- A region that is being specialized, or one arm of a split inside of it. -/
structure Region where
  func : FuncId
  /-- The first address that the region covers. -/
  entry : Location
  regs : List Binding
  ops : Array Op := #[]
  /-- Where the walk stands. -/
  cursor : Nat
  /-- The first slot that was never used. -/
  nextSlot : Nat
  /-- The join at which an arm stops. -/
  stopAt : Option Nat := none
  /-- The instructions processed in the whole attempt. -/
  steps : Nat := 0

namespace Region

/-! ## Entering -/

/-- What is known about a register at the entry. A tainted one is never fixed,
whatever its origin. -/
def entryBinding (origin : Option Origin) (slot : Slot) (c : Cell) : Binding :=
  if c.tainted then .slot slot true
  else match origin.bind (fun o => o.fix? c.value) with
    | some k => .fixed k
    | none => .slot slot false

/-- What is known about registers at the entry, from a position on. -/
def entryRegs (origin : Reg → Option Origin) (i : Nat) : List Cell → List Binding
  | [] => []
  | c :: cs => entryBinding (origin i) i c :: entryRegs origin (i + 1) cs

/-- A region that starts at an address, with registers fixed by their origin. -/
def entering (loc : Location) (f : Frame) (origin : Reg → Option Origin) : Region :=
  { func := loc.func, entry := loc, regs := entryRegs origin 0 f.cells, cursor := loc.pc,
    nextSlot := f.size }

/-- The region after a merge point, with its greens fixed. -/
def atMergePoint (loc : Location) (greens : List Reg) (f : Frame) : Except Fault Region := do
  let next ← inWidth loc.next?
  return entering next f (fun r => if r ∈ greens then some .greenEntry else none)

/-- The region after a promotion site, with the promoted register fixed. -/
def atPromotion (site : Location) (reg : Reg) (f : Frame) : Except Fault Region := do
  let next ← inWidth site.next?
  return entering next f (fun r => if r = reg then some .promoted else none)

/-- A region with no register fixed. -/
def generic (loc : Location) (f : Frame) : Region :=
  entering loc f (fun _ => none)

/-! ## Registers and slots -/

/-- The address at which the walk stands. -/
def loc (r : Region) : Location := ⟨r.func, r.cursor⟩

/-- What is known about a register. -/
def get (r : Region) (reg : Reg) : Except Fault Binding := inRange r.regs[reg]?

/-- What is known about registers, in order. -/
def getAll (r : Region) : List Reg → Except Fault (List Binding)
  | [] => .ok []
  | reg :: regs => do
    let b ← r.get reg
    let bs ← r.getAll regs
    return b :: bs

/-- Changes what is known about a register. -/
def set (r : Region) (reg : Reg) (b : Binding) : Except Fault Region :=
  if reg < r.regs.length then .ok { r with regs := r.regs.set reg b } else .error .outOfRange

theorem regs_length_set {r r' : Region} {reg : Reg} {b : Binding} (h : r.set reg b = .ok r') :
    r'.regs.length = r.regs.length := by
  unfold set at h
  split at h
  · cases h
    exact List.length_set
  · cases h

/-- The slot after a slot. -/
def nextSlot? (slot : Slot) : Except Fault Slot :=
  if slot < Word.max32 then .ok (slot + 1) else .error .overflow

/-- Takes a slot that was never used. -/
def fresh (r : Region) : Except Fault (Slot × Region) := do
  let next ← nextSlot? r.nextSlot
  return (r.nextSlot, { r with nextSlot := next })

/-- Takes no slot that another region has used. -/
def reserve (r : Region) (other : Region) : Region :=
  { r with nextSlot := max r.nextSlot other.nextSlot }

/-! ## Walking -/

/-- Goes to the next instruction. -/
def advance (r : Region) : Except Fault Region := do
  let pc ← inWidth (Word.next? r.cursor)
  return { r with cursor := pc }

/-- Goes to an instruction. -/
def jump (r : Region) (pc : Nat) : Region := { r with cursor := pc }

/-- Counts one instruction. -/
def tick (r : Region) : Except Fault Region := do
  let steps ← inWidth (Word.next? r.steps)
  return { r with steps }

/-- Raises the count of instructions. Arms are walked one after the other on
one budget, so each starts from what those before it have spent. -/
def charge (r : Region) (steps : Nat) : Region :=
  { r with steps := max r.steps steps }

/-- Leaves an operation behind. -/
def emit (r : Region) (op : Op) : Region := { r with ops := r.ops.push op }

/-- Takes the operations away. -/
def takeOps (r : Region) : List Op × Region := (r.ops.toList, { r with ops := #[] })

/-- How to leave at an address. -/
def leaveAt (r : Region) (loc : Location) (kind : LeaveKind) : Leave := ⟨loc, kind, r.regs⟩

/-- Leaves where the walk stands. -/
def leaveHere (r : Region) (kind : LeaveKind) : Region :=
  r.emit (.exit (r.leaveAt r.loc kind))

/-! ## Arms -/

/-- An arm that starts at an instruction, with no operations of its own. -/
def fork (r : Region) (cursor : Nat) (stopAt : Option Nat) : Region :=
  { r with ops := #[], cursor, stopAt }

/-- Goes on where an arm stopped. -/
def continueFrom (r : Region) (arm : Region) : Region :=
  { r with
    regs := arm.regs
    cursor := arm.cursor
    nextSlot := max r.nextSlot arm.nextSlot
    steps := max r.steps arm.steps }

/-- The finished trace. -/
def toTrace (r : Region) : Trace :=
  { entry := r.entry, ops := r.ops.toList, slots := r.nextSlot, registers := r.regs.length }

end Region

end HotPath
