/-
  HotPath.Frame

  Register files. Beside its value, every register says whether the value
  derives from input; such a register is *tainted*, and its value is never
  taken for a constant. Reading past the end of a frame gives nil, writing past
  the end does nothing.
-/
import HotPath.Location
import HotPath.Value.Basic

namespace HotPath

/-- A register: a value, and whether it derives from input. -/
structure Cell where
  value : Value
  tainted : Bool
  deriving DecidableEq

/-- The registers of a running function. -/
structure Frame where
  cells : List Cell
  deriving DecidableEq

namespace Frame

/-- A frame of nils; there are never more registers than the limit. -/
def blank (registers : Nat) : Frame :=
  ⟨List.replicate (min registers Reg.limit) ⟨.nil, false⟩⟩

/-- A frame of untainted values, cut at the limit. -/
def ofValues (values : List Value) : Frame :=
  ⟨(values.take Reg.limit).map (fun v => ⟨v, false⟩)⟩

/-- The number of registers. -/
def size (f : Frame) : Nat := f.cells.length

/-- The value of a register. -/
def get (f : Frame) (r : Reg) : Value :=
  match f.cells[r]? with
  | some c => c.value
  | none => .nil

/-- Whether a register is tainted. -/
def isTainted (f : Frame) (r : Reg) : Bool :=
  match f.cells[r]? with
  | some c => c.tainted
  | none => false

/-- Writes a register. -/
def set (f : Frame) (r : Reg) (value : Value) (tainted : Bool) : Frame :=
  ⟨f.cells.set r ⟨value, tainted⟩⟩

/-- The values of all registers. -/
def values (f : Frame) : List Value := f.cells.map Cell.value

/-- The taint of the registers as the bits of a number, the first register
lowest. -/
def maskOf : List Cell → Nat
  | [] => 0
  | c :: cs => c.tainted.toNat + 2 * maskOf cs

/-- The taint of all registers as one number. -/
def mask (f : Frame) : Nat := maskOf f.cells

/-- Puts untainted values into the registers that their positions stand for,
starting at a position. -/
def setArgs (f : Frame) (i : Nat) : List Value → Frame
  | [] => f
  | v :: vs => (f.set (Reg.ofIndex i) v false).setArgs (i + 1) vs

/-- The frame of a call: the arguments in the first registers, then nils. -/
def ofArgs (registers : Nat) (args : List Value) : Frame :=
  (blank registers).setArgs 0 args

/-! ## Reading after writing -/

@[simp] theorem size_set (f : Frame) (r : Reg) (v : Value) (t : Bool) :
    (f.set r v t).size = f.size := by
  simp [set, size]

theorem get_set (f : Frame) (r s : Reg) (v : Value) (t : Bool) :
    (f.set r v t).get s = if r = s ∧ r < f.size then v else f.get s := by
  unfold get set size
  by_cases h : r = s
  · subst h
    by_cases hr : r < f.cells.length
    · simp [hr]
    · simp [hr]
  · simp [h]

theorem isTainted_set (f : Frame) (r s : Reg) (v : Value) (t : Bool) :
    (f.set r v t).isTainted s = if r = s ∧ r < f.size then t else f.isTainted s := by
  unfold isTainted set size
  by_cases h : r = s
  · subst h
    by_cases hr : r < f.cells.length
    · simp [hr]
    · simp [hr]
  · simp [h]

end Frame

end HotPath
