/-
  HotPath.Location

  Addresses. Counters and addresses are 64-bit words, slots are 32-bit words and
  registers are bytes; numbers are kept as `Nat`, and the places where one could
  leave its width say so.
-/

namespace HotPath

/-- The largest 64-bit word. -/
def Word.max : Nat := 18446744073709551615

/-- The next word, unless there is none. -/
def Word.next? (n : Nat) : Option Nat :=
  if n < Word.max then some (n + 1) else none

/-- The largest 32-bit word. -/
def Word.max32 : Nat := 4294967295

/-- Half the number of words. Signed words run from minus this to just below
it. -/
def Word.half : Nat := 9223372036854775808

/-- A register of a frame. -/
abbrev Reg := Nat

/-- The register that stands for a position: registers are numbered by one
byte, so positions are taken modulo 256. -/
def Reg.ofIndex (i : Nat) : Reg := i % 256

/-- The most registers a frame can have. -/
def Reg.limit : Nat := 64

/-- A function, by its position in the program. -/
abbrev FuncId := Nat

/-- An instruction's address: a function and a position in its code. -/
structure Location where
  func : FuncId
  pc : Nat
  deriving DecidableEq

namespace Location

/-- The address after this one, unless the position is the last word. -/
def next? (l : Location) : Option Location :=
  (Word.next? l.pc).map (fun pc => ⟨l.func, pc⟩)

/-- An address as text, such as `f0:3`. -/
def text (l : Location) : String :=
  s!"f{l.func}:{l.pc}"

end Location

@[simp] theorem Word.next?_of_lt {n : Nat} (h : n < Word.max) : Word.next? n = some (n + 1) := by
  simp [Word.next?, h]

@[simp] theorem Reg.ofIndex_of_lt {i : Nat} (h : i < 256) : Reg.ofIndex i = i :=
  Nat.mod_eq_of_lt h

end HotPath
