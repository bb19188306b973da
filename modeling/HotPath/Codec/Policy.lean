/-
  HotPath.Codec.Policy

  Policy files: every setting has a default, so a file names only what it
  changes.
-/
import HotPath.Fault
import HotPath.Json.Decode

namespace HotPath.Policy

open Json (optional)

/-- The names of all fields, in order. -/
def fieldNames : List String :=
  ["enabled", "merge_point_threshold", "promotion_threshold", "split_threshold",
    "megamorphic_threshold", "dedup_counters", "loop_headers_only", "max_region_instrs",
    "max_call_depth", "record_events"]

/-- A setting that is a word. -/
def word? (default : Nat) (field : Option Json) : Option Nat :=
  optional (Json.nat? Word.max) default field

/-- A setting that is on or off. -/
def flag? (default : Bool) (field : Option Json) : Option Bool :=
  optional Json.bool? default field

/-- The policy that a document spells, whether it can be used or not. -/
def ofJson? (j : Json) : Option Policy := do
  let base : Policy := {}
  match ← j.fields? fieldNames with
  | [enabled, mergePoint, promotion, split, megamorphic, dedup, headers, region, depth, events] =>
    return {
      enabled := ← flag? base.enabled enabled
      mergePointThreshold := ← word? base.mergePointThreshold mergePoint
      promotionThreshold := ← word? base.promotionThreshold promotion
      splitThreshold := ← word? base.splitThreshold split
      megamorphicThreshold := ← word? base.megamorphicThreshold megamorphic
      dedupCounters := ← flag? base.dedupCounters dedup
      loopHeadersOnly := ← flag? base.loopHeadersOnly headers
      maxRegionInstrs := ← word? base.maxRegionInstrs region
      maxCallDepth := ← word? base.maxCallDepth depth
      recordEvents := ← flag? base.recordEvents events }
  | _ => none

/-- Reads and checks a policy file. -/
def ofText (s : String) : Except Fault Policy :=
  match (Json.parse? s).bind ofJson? with
  | none => .error .json
  | some p =>
    match p.validate with
    | .ok () => .ok p
    | .error e => .error e

/-- A policy as a document. -/
def toJson (p : Policy) : Json :=
  Json.record (fieldNames.zip [
    .bool p.enabled, .ofNat p.mergePointThreshold, .ofNat p.promotionThreshold,
    .ofNat p.splitThreshold, .ofNat p.megamorphicThreshold, .bool p.dedupCounters,
    .bool p.loopHeadersOnly, .ofNat p.maxRegionInstrs, .ofNat p.maxCallDepth,
    .bool p.recordEvents])

end HotPath.Policy
