/-
  HotPath.Codec.Program

  Program files: functions with their code, and the entry. Files are written
  with one field a line.
-/
import HotPath.Codec.Instr
import HotPath.Program.Basic

namespace HotPath

open Json (required optional)

/-- How deep the constants of a program file may nest: a program, its list of
functions, a function, its code and an instruction are around them. -/
def Program.constantDepth : Nat := Json.maxDepth - 5

/-- The function that a document spells. -/
def Function.ofJson? (j : Json) : Option Function := do
  match ← j.fields? ["name", "params", "registers", "code"] with
  | [name, params, registers, code] =>
    return {
      name := ← required Json.text? name
      params := ← optional (Json.nat? 255) 0 params
      registers := ← required (Json.nat? 255) registers
      code := (← required (Json.list? (Instr.ofJson? Program.constantDepth)) code).toArray }
  | _ => none

/-- A function as a document. -/
def Function.toJson (f : Function) : Json :=
  Json.record [
    ("name", .ofText f.name),
    ("params", .ofNat f.params),
    ("registers", .ofNat f.registers),
    ("code", .arr (f.code.toList.map Instr.toJson))]

namespace Program

/-- The functions and the entry that a document spells. -/
def partsOfJson? (j : Json) : Option (Array Function × FuncId) := do
  match ← j.fields? ["functions", "entry"] with
  | [functions, entry] =>
    return ((← required (Json.list? Function.ofJson?) functions).toArray,
      ← optional (Json.nat? Word.max32) 0 entry)
  | _ => none

/-- Checks the program that a document spells. -/
def ofJson (j : Json) : Except Fault Program :=
  match partsOfJson? j with
  | some (functions, entry) => ofFunctions functions entry
  | none => .error .json

/-- Reads and checks a program file. -/
def ofText (s : String) : Except Fault Program :=
  match Json.parse? s with
  | some j => ofJson j
  | none => .error .json

/-- A program as a document. -/
def toJson (p : Program) : Json :=
  Json.record [
    ("functions", .arr (p.functions.toList.map Function.toJson)),
    ("entry", .ofNat p.entry)]

/-- A program file. -/
def toText (p : Program) : String := p.toJson.pretty 0

end Program

end HotPath
