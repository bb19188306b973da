/-
  HotPath.Instr.Basic

  The instruction set: thirteen instructions on a frame of registers, what each
  one reads, writes and needs, and where control goes after it.
-/
import HotPath.Instr.Capability
import HotPath.Location
import HotPath.Value.Operator

namespace HotPath

/-- One instruction. -/
inductive Instr where
  /-- Put a literal into a register. -/
  | const (dst : Reg) (value : Value)
  | move (dst src : Reg)
  | binary (op : Operator) (dst lhs rhs : Reg)
  /-- Take the next input value. -/
  | input (dst : Reg)
  /-- Append a value to the output. -/
  | print (src : Reg)
  /-- Make a tuple of registers. -/
  | alloc (dst : Reg) (fields : List Reg)
  | getField (dst obj : Reg) (index : UInt64)
  | call (dst : Reg) (func : FuncId) (args : List Reg)
  | jump (target : Nat)
  /-- Fall through if the condition is true, otherwise go to `elsePc`; `join`
  names the place where both arms meet again, if they do. -/
  | branch (cond : Reg) (elsePc : Nat) (join : Option Nat)
  /-- A place where execution may change hands, keyed by the `greens`. -/
  | mergePoint (greens : List Reg)
  /-- A place where the value of a register is worth knowing. -/
  | promote (reg : Reg)
  | ret (src : Reg)
  deriving DecidableEq

namespace Instr

/-- The capability that executing the instruction takes, if any. -/
def needs : Instr → Option Capability
  | .input _ | .print _ => some .io
  | .alloc .. | .getField .. => some .alloc
  | .call .. => some .call
  | .promote _ => some .promote
  | _ => none

/-- The register that the instruction writes, if any. -/
def writes : Instr → Option Reg
  | .const dst _ => some dst
  | .move dst _ => some dst
  | .binary _ dst _ _ => some dst
  | .input dst => some dst
  | .alloc dst _ => some dst
  | .getField dst _ _ => some dst
  | .call dst _ _ => some dst
  | _ => none

/-- The registers that the instruction reads, in order. -/
def reads : Instr → List Reg
  | .const .. | .input _ | .jump _ => []
  | .move _ src => [src]
  | .print src => [src]
  | .ret src => [src]
  | .binary _ _ lhs rhs => [lhs, rhs]
  | .alloc _ fields => fields
  | .getField _ obj _ => [obj]
  | .call _ _ args => args
  | .branch cond _ _ => [cond]
  | .mergePoint greens => greens
  | .promote reg => [reg]

/-- Whether control can go on to the next instruction. -/
def fallsThrough : Instr → Bool
  | .jump _ | .ret _ => false
  | _ => true

/-- Where control can go from the instruction at `pc`. -/
def successors (i : Instr) (pc : Nat) : List Nat :=
  match i with
  | .jump target => [target]
  | .branch _ elsePc _ => [pc + 1, elsePc]
  | .ret _ => []
  | _ => [pc + 1]

/-- The successors, unless control could fall through the last address. -/
def successors? (i : Instr) (pc : Nat) : Option (List Nat) :=
  if i.fallsThrough && !decide (pc < Word.max) then none else some (i.successors pc)

/-- Whether the instruction is a merge point. -/
def isMergePoint : Instr → Bool
  | .mergePoint _ => true
  | _ => false

/-! ## Text -/

/-- A register as text. -/
def regText (r : Reg) : String := s!"r{r}"

/-- Registers as text, with commas between them. -/
def regsText (rs : List Reg) : String :=
  ", ".intercalate (rs.map regText)

/-- An instruction as text. -/
def text : Instr → String
  | .const dst value => s!"r{dst} = const {value.text}"
  | .move dst src => s!"r{dst} = r{src}"
  | .binary op dst lhs rhs => s!"r{dst} = r{lhs} {op.symbol} r{rhs}"
  | .input dst => s!"r{dst} = input"
  | .print src => s!"print r{src}"
  | .alloc dst fields => s!"r{dst} = alloc ({regsText fields})"
  | .getField dst obj index => s!"r{dst} = r{obj}.{index.toNat}"
  | .call dst func args => s!"r{dst} = call f{func}({regsText args})"
  | .jump target => s!"jump {target}"
  | .branch cond elsePc (some join) => s!"branch r{cond} else {elsePc} join {join}"
  | .branch cond elsePc none => s!"branch r{cond} else {elsePc}"
  | .mergePoint greens => s!"merge_point [{regsText greens}]"
  | .promote reg => s!"promote r{reg}"
  | .ret src => s!"return r{src}"

end Instr

end HotPath
