/-
  HotPath.Segment

  Interpreted segments: the machine runs to the next place where execution
  changes hands, and what its top frame passed is counted. Counting has no
  influence on the run.
-/
import HotPath.Heat
import HotPath.Machine

namespace HotPath

/-- Counts one segment; its de-duplication window is closed afterwards. -/
def Heat.recordSegment (h : Heat) (s : UnitStore) (seen : Array Observation) : Heat × UnitStore :=
  let (h, s) := h.beginSegment.recordAll s seen
  (h.endSegment, s)

/-- What an interpreted segment reads and changes. -/
structure Profile where
  io : Console
  heat : Heat
  store : UnitStore

/-- Takes over what a segment left. -/
def Profile.absorb (p : Profile) (t : Track) : Profile :=
  let (heat, store) := p.heat.recordSegment p.store t.seen
  ⟨t.io, heat, store⟩

/-- Runs one segment. What it passed is counted also if it fails. -/
def Machine.segment (m : Machine) (fuel : Nat) (loc : Location) (f : Frame) (p : Profile) :
    Outcome Profile Exit :=
  match m.resume fuel loc f p.io with
  | .done e t => .done e (p.absorb t)
  | .failed e t => .failed e (p.absorb t)
  | .starved => .starved

end HotPath
