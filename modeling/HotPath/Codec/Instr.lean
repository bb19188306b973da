/-
  HotPath.Codec.Instr

  Instructions in JSON: an object with the member `op` and the instruction's
  fields, or an array of the same in order.

  The `op` may stand anywhere in an object, so everything else is held until it
  is known, and has to be a document that can be held.
-/
import HotPath.Codec.Value

namespace HotPath

open Json (required optional)

/-- An operator: its name, or an object with the name as its only key. -/
def Operator.ofJson? : Json → Option Operator
  | .str raw => (Json.Quoted.decode? raw).bind Operator.ofName?
  | .obj [(key, .null)] => (Json.Quoted.decode? key).bind Operator.ofName?
  | .obj [(key, .obj [])] => (Json.Quoted.decode? key).bind Operator.ofName?
  | _ => none

namespace Instr

/-- A register. -/
def reg? (j : Json) : Option Reg := j.nat? 255

/-- A function. -/
def func? (j : Json) : Option FuncId := j.nat? Word.max32

/-- A position in the code. -/
def pc? (j : Json) : Option Nat := j.nat? Word.max

/-- A field index. -/
def index? (j : Json) : Option UInt64 := (j.nat? Word.max).map UInt64.ofNat

/-- A list of registers. -/
def regs? (j : Json) : Option (List Reg) := j.list? reg?

/-- A join, where `null` stands for none. -/
def join? : Json → Option (Option Nat)
  | .null => some none
  | j => (pc? j).map some

/-- The names of the instructions in program files. -/
inductive Name where
  | const
  | move
  | binary
  | input
  | print
  | alloc
  | getField
  | call
  | jump
  | branch
  | mergePoint
  | promote
  | ret
  deriving DecidableEq

/-- The text of a name. -/
def Name.text : Name → String
  | .const => "const"
  | .move => "move"
  | .binary => "binary"
  | .input => "input"
  | .print => "print"
  | .alloc => "alloc"
  | .getField => "get_field"
  | .call => "call"
  | .jump => "jump"
  | .branch => "branch"
  | .mergePoint => "merge_point"
  | .promote => "promote"
  | .ret => "return"

/-- All names. -/
def Name.all : List Name :=
  [.const, .move, .binary, .input, .print, .alloc, .getField, .call, .jump, .branch,
    .mergePoint, .promote, .ret]

/-- The name with a given text. -/
def Name.ofText? (s : String) : Option Name :=
  all.find? (fun n => n.text == s)

/-- The fields of an instruction, in order. -/
def Name.fields : Name → List String
  | .const => ["dst", "value"]
  | .move => ["dst", "src"]
  | .binary => ["operator", "dst", "lhs", "rhs"]
  | .input => ["dst"]
  | .print => ["src"]
  | .alloc => ["dst", "fields"]
  | .getField => ["dst", "obj", "index"]
  | .call => ["dst", "func", "args"]
  | .jump => ["target"]
  | .branch => ["cond", "else_pc", "join"]
  | .mergePoint => ["greens"]
  | .promote => ["reg"]
  | .ret => ["src"]

/-- The instruction with a name and fields. -/
def ofFields? : Name → List (Option Json) → Option Instr
  | .const, [dst, value] => do
    return .const (← required reg? dst) (← required Value.ofJson? value)
  | .move, [dst, src] => do
    return .move (← required reg? dst) (← required reg? src)
  | .binary, [op, dst, lhs, rhs] => do
    return .binary (← required Operator.ofJson? op) (← required reg? dst) (← required reg? lhs)
      (← required reg? rhs)
  | .input, [dst] => do
    return .input (← required reg? dst)
  | .print, [src] => do
    return .print (← required reg? src)
  | .alloc, [dst, fields] => do
    return .alloc (← required reg? dst) (← required regs? fields)
  | .getField, [dst, obj, index] => do
    return .getField (← required reg? dst) (← required reg? obj) (← required index? index)
  | .call, [dst, func, args] => do
    return .call (← required reg? dst) (← required func? func) (← required regs? args)
  | .jump, [target] => do
    return .jump (← required pc? target)
  | .branch, [cond, elsePc, join] => do
    return .branch (← required reg? cond) (← required pc? elsePc) (← optional join? none join)
  | .mergePoint, [greens] => do
    return .mergePoint (← optional regs? [] greens)
  | .promote, [reg] => do
    return .promote (← required reg? reg)
  | .ret, [src] => do
    return .ret (← required reg? src)
  | _, _ => none

/-- The instruction that a document spells, whose fields may nest at most
`depth` containers. -/
def ofJson? (depth : Nat) : Json → Option Instr
  | .obj members => do
    let members ← Json.keyed? members
    let op ← Json.once? (Json.valuesOf members "op")
    let name ← (← required Json.text? op) |> Name.ofText?
    let rest := members.filter (fun m => m.1 != "op")
    if rest.all (fun m => m.2.holds depth) then
      ofFields? name (← Json.namedFields? name.fields rest)
    else none
  | .arr (op :: items) => do
    let name ← (← op.text?) |> Name.ofText?
    if items.all (fun j => j.holds depth) then
      ofFields? name (← Json.placedFields? name.fields.length items)
    else none
  | _ => none

/-- Registers as a document. -/
def regsJson (rs : List Reg) : Json := .arr (rs.map Json.ofNat)

/-- The name of an instruction. -/
def opName : Instr → Name
  | .const .. => .const
  | .move .. => .move
  | .binary .. => .binary
  | .input _ => .input
  | .print _ => .print
  | .alloc .. => .alloc
  | .getField .. => .getField
  | .call .. => .call
  | .jump _ => .jump
  | .branch .. => .branch
  | .mergePoint _ => .mergePoint
  | .promote _ => .promote
  | .ret _ => .ret

/-- The fields of an instruction as documents, in order. -/
def fieldValues : Instr → List Json
  | .const dst value => [.ofNat dst, value.toJson]
  | .move dst src => [.ofNat dst, .ofNat src]
  | .binary op dst lhs rhs => [.ofText op.name, .ofNat dst, .ofNat lhs, .ofNat rhs]
  | .input dst => [.ofNat dst]
  | .print src => [.ofNat src]
  | .alloc dst fields => [.ofNat dst, regsJson fields]
  | .getField dst obj index => [.ofNat dst, .ofNat obj, .ofNat index.toNat]
  | .call dst func args => [.ofNat dst, .ofNat func, regsJson args]
  | .jump target => [.ofNat target]
  | .branch cond elsePc join =>
    [.ofNat cond, .ofNat elsePc, match join with
      | some pc => .ofNat pc
      | none => .null]
  | .mergePoint greens => [regsJson greens]
  | .promote reg => [.ofNat reg]
  | .ret src => [.ofNat src]

/-- An instruction as a document: the `op` first, then every field. -/
def toJson (i : Instr) : Json :=
  Json.record (("op", .ofText i.opName.text) :: i.opName.fields.zip i.fieldValues)

/-- Reads the text of one instruction. -/
def ofText (s : String) : Except Fault Instr :=
  match (Json.parse? s).bind (ofJson? (Json.maxDepth - 1)) with
  | some i => .ok i
  | none => .error .json

end Instr

end HotPath
