/-
  HotPath.Engine.Stats

  What an engine did, in numbers.
-/

namespace HotPath

/-- Numbers about an engine's work. No decision rests on them, and they are unbounded: unlike
positions, depths and counts of heat they are not kept to the width of a word, which no run
could fill. -/
structure Stats where
  mergePointArrivals : Nat := 0
  promotionExits : Nat := 0
  interpretedSegments : Nat := 0
  fallbackSegments : Nat := 0
  compiledRuns : Nat := 0
  unitsCompiled : Nat := 0
  /-- Attempts that gave up. -/
  specializationFallbacks : Nat := 0
  /-- Attempts that found nothing to compile. -/
  emptyRegions : Nat := 0
  deriving DecidableEq

/-- The numbers as a report. -/
def Stats.summary (s : Stats) : String :=
  "=== Dispatch Summary ===\n" ++
  s!"Merge point arrivals: {s.mergePointArrivals}\n" ++
  s!"Promotion exits: {s.promotionExits}\n" ++
  s!"Segments: {s.interpretedSegments} interpreted, {s.fallbackSegments} fallback, " ++
  s!"{s.compiledRuns} compiled\n" ++
  s!"Units compiled: {s.unitsCompiled} ({s.specializationFallbacks} attempts fell back, " ++
  s!"{s.emptyRegions} empty regions)\n"

end HotPath
