/-
  HotPath.Instr.Capability

  What an executor may be allowed to do, and sets of such permissions.
-/

namespace HotPath

/-- A permission that some instructions need. -/
inductive Capability where
  | call
  | io
  | alloc
  | promote
  deriving DecidableEq

/-- The word for a capability. -/
def Capability.name : Capability → String
  | .call => "CALL"
  | .io => "IO"
  | .alloc => "ALLOC"
  | .promote => "PROMOTE"

/-- A set of capabilities. -/
structure Capabilities where
  call : Bool
  io : Bool
  alloc : Bool
  promote : Bool
  deriving DecidableEq

namespace Capabilities

/-- Every capability. -/
def all : Capabilities := ⟨true, true, true, true⟩

/-- No capability. -/
def none : Capabilities := ⟨false, false, false, false⟩

/-- Whether a capability is in the set. -/
def has (s : Capabilities) : Capability → Bool
  | .call => s.call
  | .io => s.io
  | .alloc => s.alloc
  | .promote => s.promote

/-- The set with one capability more. -/
def insert (s : Capabilities) : Capability → Capabilities
  | .call => { s with call := true }
  | .io => { s with io := true }
  | .alloc => { s with alloc := true }
  | .promote => { s with promote := true }

/-- The set of the listed capabilities. -/
def ofList (cs : List Capability) : Capabilities :=
  cs.foldl insert none

/-- The capabilities of the set, in a fixed order. -/
def toList (s : Capabilities) : List Capability :=
  [Capability.call, .io, .alloc, .promote].filter s.has

/-- The members with bars between them, or `none`. -/
def text (s : Capabilities) : String :=
  match s.toList with
  | [] => "none"
  | cs => " | ".intercalate (cs.map Capability.name)

@[simp] theorem has_all (c : Capability) : all.has c = true := by
  cases c <;> rfl

end Capabilities

end HotPath
