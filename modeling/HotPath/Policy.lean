/-
  HotPath.Policy

  The knobs of the engine: when to specialize, what to count and how far to go.
-/

namespace HotPath

/-- How eagerly and how far the engine specializes. -/
structure Policy where
  /-- Specialize at all; otherwise the engine only interprets. -/
  enabled : Bool := true
  /-- Arrivals at a merge point before it is compiled. -/
  mergePointThreshold : Nat := 10
  /-- Observations of a value at a promotion site before it is compiled. -/
  promotionThreshold : Nat := 10
  /-- Passes through one arm of an allocating split before it is compiled. -/
  splitThreshold : Nat := 10
  /-- Distinct values a promotion site may hold before it turns generic. -/
  megamorphicThreshold : Nat := 4
  /-- Count each place at most once in a fall-back segment. -/
  dedupCounters : Bool := false
  /-- Change hands only at merge points that are loop headers. -/
  loopHeadersOnly : Bool := false
  /-- Instructions that one specialization may process. -/
  maxRegionInstrs : Nat := 10000
  /-- The limit on nested calls. -/
  maxCallDepth : Nat := 256
  /-- Keep a log of phase changes. -/
  recordEvents : Bool := false
  deriving DecidableEq

/-- The settings that have to be positive. -/
inductive Setting where
  | mergePointThreshold
  | promotionThreshold
  | splitThreshold
  | megamorphicThreshold
  | maxRegionInstrs
  deriving DecidableEq

namespace Setting

/-- All of them, in the order in which they are checked. -/
def all : List Setting :=
  [.mergePointThreshold, .promotionThreshold, .splitThreshold, .megamorphicThreshold,
    .maxRegionInstrs]

/-- The setting's name in policy files. -/
def name : Setting → String
  | .mergePointThreshold => "merge_point_threshold"
  | .promotionThreshold => "promotion_threshold"
  | .splitThreshold => "split_threshold"
  | .megamorphicThreshold => "megamorphic_threshold"
  | .maxRegionInstrs => "max_region_instrs"

end Setting

namespace Policy

/-- The value of a setting. -/
def get (p : Policy) : Setting → Nat
  | .mergePointThreshold => p.mergePointThreshold
  | .promotionThreshold => p.promotionThreshold
  | .splitThreshold => p.splitThreshold
  | .megamorphicThreshold => p.megamorphicThreshold
  | .maxRegionInstrs => p.maxRegionInstrs

/-- The first setting that is zero and must not be. -/
def zeroSetting? (p : Policy) : Option Setting :=
  Setting.all.find? (fun s => p.get s == 0)

/-- A policy that never specializes. -/
def interpretedOnly : Policy := { enabled := false }

/-- Sets the merge point and promotion thresholds together. -/
def withThreshold (p : Policy) (n : Nat) : Policy :=
  { p with mergePointThreshold := n, promotionThreshold := n }

theorem zeroSetting?_eq_none_iff (p : Policy) :
    p.zeroSetting? = none ↔ ∀ s, 0 < p.get s := by
  constructor
  · intro h s
    have hs : s ∈ Setting.all := by cases s <;> simp [Setting.all]
    have := (List.find?_eq_none.mp h) s hs
    simp at this
    omega
  · intro h
    refine List.find?_eq_none.mpr (fun s _ => ?_)
    have := h s
    simp
    omega

end Policy

end HotPath
