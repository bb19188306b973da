/-
  HotPath.Proofs.Engine.Books

  The books of an engine: what it has counted and compiled, the places it has found
  to be empty, and the store it works with. Its decisions rest on the books alone.

  This module says once what a turn can do to them (`Books.Change`): count an arrival
  at a merge point or note a value at a promotion site, and in either case perhaps
  compile and install a unit; or count what a segment passed.
  `Engine.onMergePoint_changes`, `Engine.onPromotion_changes` and
  `Engine.turn_changes` say that nothing else can happen, also where a turn fails.
-/
import HotPath.Proofs.Engine.Steps

namespace HotPath

/-- What the decisions of an engine rest on. -/
structure Books where
  heat : Heat
  empty : KeySet UnitEntry
  committed : Array CodeUnit
  store : UnitStore

/-- The books on a desk. -/
def Desk.books (d : Desk) : Books :=
  ⟨d.engine.heat, d.engine.emptyEntries, d.engine.committed, d.store⟩

namespace CodeUnit

variable {u : CodeUnit} {f : Frame}

theorem accepts_iff : u.accepts f = true ↔ u.entryTaint = f.mask := by
  unfold accepts
  rw [beq_iff_eq]
  exact eq_comm

theorem fitting?_eq_none {o : Option CodeUnit} (h : fitting? f o = none) (hu : o = some u) :
    u.entryTaint ≠ f.mask := by
  subst hu
  intro htaint
  simp only [fitting?, accepts_iff.mpr htaint, if_true] at h
  cases h

end CodeUnit

-- ============================================================================
-- Changes
-- ============================================================================

namespace Books

/-- Whether anything is specialized. -/
def isActive (b : Books) (pol : Policy) : Bool := pol.enabled && !b.store.disabled

/-- All that specialization consults. -/
def guide (b : Books) (p : Program) (pol : Policy) : Guide := ⟨p, pol, b.heat, b.store⟩

/-- A key has been counted. -/
def counted (b : Books) (k : HeatKey) : Books := { b with heat := (b.heat.observe k).2 }

/-- The key under which a value at a promotion site is counted. -/
def heatKey (b : Books) (site : Location) (v : Value) : HeatKey := (b.store.heatKey site v).1

/-- A value at a promotion site has been noted and counted. -/
def noted (b : Books) (site : Location) (v : Value) : Books :=
  { b.counted (b.heatKey site v) with store := (b.store.heatKey site v).2 }

/-- What is decided about a value once it is noted, and the store that this leaves. -/
def decide (b : Books) (pol : Policy) (site : Location) (v : Value) (f : Frame) :
    Decision × UnitStore :=
  (b.noted site v).store.decide pol.promotionThreshold site v
    (b.heat.observe (b.heatKey site v)).1 f

/-- What a segment passed has been counted. -/
def segmented (b : Books) (seen : Array Observation) : Books :=
  { b with
    heat := (b.heat.recordSegment b.store seen).1
    store := (b.heat.recordSegment b.store seen).2 }

/-- A unit, if there is one, has been put into the store. -/
def installed (b : Books) (unit : Option CodeUnit) (put : CodeUnit → UnitStore → UnitStore) :
    Books :=
  match unit with
  | some u => { b with store := put u b.store }
  | none => b

/-- What compiling a region for a place does: it gives a unit, finds the region to be
empty, or comes to nothing, which may end all specialization. -/
inductive Compiles (p : Program) (pol : Policy) (region : Except Fault Region) (entry : UnitEntry)
    (taint : Nat) (b : Books) : Option CodeUnit → Books → Prop where
  | unit {r : Region} {t : Trace} {u : CodeUnit} (hr : region = .ok r)
    (ht : r.specialize (b.guide p pol) = .ok (.committed t)) (hentry : u.entry = entry)
    (htaint : u.entryTaint = taint) :
    Compiles p pol region entry taint b (some u)
      { b with committed := b.committed.push u, store := b.store.freshId.2 }
  | empty {r : Region} (hr : region = .ok r) (ht : r.specialize (b.guide p pol) = .ok .empty) :
    Compiles p pol region entry taint b none { b with empty := b.empty.add entry }
  | gaveUp : Compiles p pol region entry taint b none b
  | ended : Compiles p pol region entry taint b none { b with store := b.store.disable }

/-- No unit is installed for a merge point instance that accepts its frames. -/
def Lacks (b : Books) (k : MergeKey) : Prop :=
  ∀ u, b.store.lookup k = some u → u.entryTaint ≠ k.taint

/-- What a turn can do to the books. It is marked with the merge point instance that it
has handled an arrival at, if it has. -/
inductive Change (p : Program) (pol : Policy) (b : Books) : Option MergeKey → Books → Prop where
  | rest : Change p pol b none b
  /-- An arrival is answered without counting it. -/
  | passed {k : MergeKey}
    (h : b.isActive pol = true → ∃ u, b.store.lookup k = some u ∧ u.entryTaint = k.taint) :
    Change p pol b (some k) b
  /-- An arrival is counted, and the instance is not hot or known to be empty. -/
  | cold {k : MergeKey} (hactive : b.isActive pol = true) (hlacks : b.Lacks k)
    (h : (b.heat.observe (.mergePoint k)).1 < pol.mergePointThreshold ∨
      b.empty.contains (.mergePoint k) = true) :
    Change p pol b (some k) (b.counted (.mergePoint k))
  /-- An arrival is counted, and the instance is compiled. -/
  | hot {loc : Location} {f : Frame} {k : MergeKey} {unit : Option CodeUnit} {b' : Books}
    (hk : k = .ofFrame loc (p.greens loc) f) (hactive : b.isActive pol = true)
    (hlacks : b.Lacks k) (hhot : pol.mergePointThreshold ≤ (b.heat.observe (.mergePoint k)).1)
    (hempty : b.empty.contains (.mergePoint k) = false)
    (h : Compiles p pol (Region.atMergePoint loc (p.greens loc) f) (.mergePoint k) k.taint
      (b.counted (.mergePoint k)) unit b') :
    Change p pol b (some k) (b'.installed unit (fun u s => s.install k u))
  /-- A segment is counted; a gap in it ends all specialization. -/
  | segment (seen : Array Observation) (gap : Bool) :
    Change p pol b none { b.segmented seen with
      store := if gap then (b.segmented seen).store.disable else (b.segmented seen).store }
  /-- A value is noted, and nothing is compiled for it. -/
  | noted (site : Location) (v : Value) (f : Frame) (hactive : b.isActive pol = true) :
    Change p pol b none { b.noted site v with store := (b.decide pol site v f).2 }
  /-- A value is noted, and compiled. -/
  | promoted {site : Location} {reg : Reg} {f : Frame} {unit : Option CodeUnit} {b' : Books}
    (hactive : b.isActive pol = true)
    (hdecision : (b.decide pol site (f.get reg) f).1 = .specialize)
    (hempty : b.empty.contains (.promotion site (f.get reg)) = false)
    (h : Compiles p pol (Region.atPromotion site reg f) (.promotion site (f.get reg)) f.mask
      (b.noted site (f.get reg)) unit b') :
    Change p pol b none (b'.installed unit
      (fun u s => (s.installPromotion site ⟨f.get reg, f.mask, u⟩).2))
  /-- A value is noted, and its site is compiled for all values. -/
  | generic {site : Location} {v : Value} {f : Frame} {unit : Option CodeUnit} {b' : Books}
    (hactive : b.isActive pol = true)
    (hdecision : (b.decide pol site v f).1 = .specializeGeneric)
    (hempty : b.empty.contains (.generic site) = false)
    (h : Compiles p pol (.ok (Region.generic site.after f)) (.generic site) f.mask
      (b.noted site v) unit b') :
    Change p pol b none (b'.installed unit (fun u s => (s.installGeneric site u).2))

section

variable {p : Program} {pol : Policy} {region : Except Fault Region} {entry : UnitEntry}
  {taint : Nat} {b b' b₁ : Books} {unit : Option CodeUnit} {u : CodeUnit}
  {put : CodeUnit → UnitStore → UnitStore} {handled : Option MergeKey}

theorem Compiles.heat_eq (h : b.Compiles p pol region entry taint unit b') : b'.heat = b.heat := by
  cases h with
  | unit | empty | gaveUp | ended => rfl

theorem installed_heat (b : Books) (unit : Option CodeUnit)
    (put : CodeUnit → UnitStore → UnitStore) : (b.installed unit put).heat = b.heat := by
  cases unit with
  | none => rfl
  | some u => rfl

theorem push_ne_self {α : Type} (xs : Array α) (x : α) : xs ≠ xs.push x := by
  intro h
  have hsize := congrArg Array.size h
  rw [Array.size_push] at hsize
  omega

/-- Compiling that has committed a unit was for the unit's own place, and has put it into
the store. -/
theorem Compiles.eq_of_push (h : b.Compiles p pol region entry taint unit b₁)
    (hpush : (b₁.installed unit put).committed = b.committed.push u) :
    u.entry = entry ∧ u.entryTaint = taint ∧
      (b₁.installed unit put).store = put u b.store.freshId.2 := by
  cases h with
  | @unit r t u' hr ht hentry htaint =>
    obtain rfl : u' = u := (Array.push_eq_push.mp hpush).1
    exact ⟨hentry, htaint, rfl⟩
  | empty => exact absurd hpush (push_ne_self _ u)
  | gaveUp => exact absurd hpush (push_ne_self _ u)
  | ended => exact absurd hpush (push_ne_self _ u)

theorem Compiles.committed_eq (h : b.Compiles p pol region entry taint unit b₁) :
    (b₁.installed unit put).committed = b.committed ∨
      ∃ u, (b₁.installed unit put).committed = b.committed.push u := by
  cases h with
  | unit => exact Or.inr ⟨_, rfl⟩
  | empty | gaveUp | ended => exact Or.inl rfl

/-- A turn commits at most one unit. -/
theorem Change.committed_eq (h : b.Change p pol handled b') :
    b'.committed = b.committed ∨ ∃ u, b'.committed = b.committed.push u := by
  cases h with
  | rest | passed | cold | segment | noted => exact Or.inl rfl
  | hot hk hactive hlacks hhot hempty h => exact h.committed_eq
  | promoted hactive hdecision hempty h => exact h.committed_eq
  | generic hactive hdecision hempty h => exact h.committed_eq

/-- A unit for a value is committed only where that is decided, and then it is
installed. -/
theorem Change.eq_of_push {site : Location} {v : Value} (h : b.Change p pol handled b')
    (hpush : b'.committed = b.committed.push u) (hentry : u.entry = .promotion site v) :
    ∃ f, (b.decide pol site v f).1 = .specialize ∧ u.entryTaint = f.mask ∧
      b'.heat = (b.noted site v).heat ∧
      b'.store = ((b.noted site v).store.freshId.2.installPromotion site ⟨v, f.mask, u⟩).2 := by
  cases h with
  | rest | passed | cold | segment | noted => exact absurd hpush (push_ne_self _ u)
  | hot hk hactive hlacks hhot hempty h =>
    have hentry' := (h.eq_of_push hpush).1
    rw [hentry] at hentry'
    cases hentry'
  | @promoted loc reg f unit b₁ hactive hdecision hempty h =>
    obtain ⟨hentry', htaint, hstore⟩ := h.eq_of_push hpush
    rw [hentry] at hentry'
    cases hentry'
    exact ⟨f, hdecision, htaint, (installed_heat b₁ unit _).trans h.heat_eq, hstore⟩
  | generic hactive hdecision hempty h =>
    have hentry' := (h.eq_of_push hpush).1
    rw [hentry] at hentry'
    cases hentry'

end

end Books

-- ============================================================================
-- New engines
-- ============================================================================

/-- An engine that has counted and compiled nothing. -/
structure Engine.IsBlank (e : Engine) (p : Program) (pol : Policy) : Prop where
  program_eq : e.program = p
  policy_eq : e.policy = pol
  counts_eq : e.heat.counts = {}
  segment_eq : e.heat.segment = none
  committed_eq : e.committed = #[]

theorem Engine.IsNew.isBlank {e : Engine} {p : Program} {pol : Policy} (h : e.IsNew p pol) :
    e.IsBlank p pol := by
  obtain ⟨e₁, simplifies, he₁, rfl⟩ := h
  unfold ofPolicy at he₁
  split at he₁
  · cases he₁
    exact ⟨rfl, rfl, rfl, rfl, rfl⟩
  · cases he₁

-- ============================================================================
-- Work
-- ============================================================================

/-- The engine of a desk goes on with the same program and policy, and a change to its
books. -/
structure Desk.Changes (handled : Option MergeKey) (d d' : Desk) : Prop where
  program_eq : d'.engine.program = d.engine.program
  policy_eq : d'.engine.policy = d.engine.policy
  change : d.books.Change d.engine.program d.engine.policy handled d'.books

/-- The same, with no change. -/
structure Desk.Keeps (d d' : Desk) : Prop where
  program_eq : d'.engine.program = d.engine.program
  policy_eq : d'.engine.policy = d.engine.policy
  books_eq : d'.books = d.books

theorem Desk.Keeps.changes {handled : Option MergeKey} {d d₁ d' : Desk} (h : d.Keeps d₁)
    (h' : d₁.Changes handled d') : d.Changes handled d' where
  program_eq := h'.program_eq.trans h.program_eq
  policy_eq := h'.policy_eq.trans h.policy_eq
  change := by
    have hchange := h'.change
    rw [h.program_eq, h.policy_eq, h.books_eq] at hchange
    exact hchange

theorem Desk.Changes.keeps {handled : Option MergeKey} {d d₁ d' : Desk} (h : d.Changes handled d₁)
    (h' : d₁.Keeps d') : d.Changes handled d' where
  program_eq := h'.program_eq.trans h.program_eq
  policy_eq := h'.policy_eq.trans h.policy_eq
  change := h'.books_eq ▸ h.change

theorem Desk.Keeps.rest {d d' : Desk} (h : d.Keeps d') : d.Changes none d' where
  program_eq := h.program_eq
  policy_eq := h.policy_eq
  change := h.books_eq ▸ .rest

/-- Whatever work comes to, it leaves a desk that meets a condition. -/
def Outcome.Leaves {α : Type} (o : Outcome Desk α) (P : Desk → Prop) : Prop :=
  o.Meets (fun _ => P) (fun _ => P) True

theorem Outcome.Leaves.imp {α : Type} {o : Outcome Desk α} {P Q : Desk → Prop} (h : o.Leaves P)
    (hPQ : ∀ d, P d → Q d) : o.Leaves Q :=
  Meets.imp h (fun _ => hPQ) (fun _ => hPQ) id

/-- One piece of work after another, where it does no harm to stop in between. -/
theorem Work.leaves_bind {α β : Type} {w : Work α} {next : α → Work β} {d : Desk}
    {P Q : Desk → Prop} (hw : (w d).Leaves Q) (hstop : ∀ d', Q d' → P d')
    (hn : ∀ a d', Q d' → (next a d').Leaves P) : ((w >>= next) d).Leaves P :=
  Work.meets_bind (Outcome.Meets.imp hw (fun _ _ => id) (fun _ => hstop) id) hn

theorem Work.leaves_enter (new : Phase) (loc : Location) (d : Desk) :
    (Work.enter new loc d).Leaves d.Keeps := by
  unfold Work.enter
  split
  · exact ⟨rfl, rfl, rfl⟩
  · exact ⟨rfl, rfl, rfl⟩

theorem Work.leaves_tally (change : Stats → Stats) (d : Desk) :
    (Work.tally change d).Leaves d.Keeps :=
  ⟨rfl, rfl, rfl⟩

theorem Work.leaves_lift {α : Type} (x : Except Fault α) (d : Desk) :
    (Work.lift x d).Leaves (· = d) := by
  cases x with
  | ok a => exact rfl
  | error e => exact rfl

namespace Engine

variable {loc site : Location} {f : Frame}

theorem leaves_interpretAfter (loc : Location) (f : Frame) (d : Desk) :
    (interpretAfter loc f d).Leaves (· = d) :=
  Work.leaves_bind (Work.leaves_lift _ d) (fun _ => id) (fun _ _ => id)

theorem leaves_fallBackAfter (loc : Location) (f : Frame) (d : Desk) :
    (fallBackAfter loc f d).Leaves (· = d) :=
  Work.leaves_bind (Work.leaves_lift _ d) (fun _ => id) (fun _ _ => id)

/-- The unit that compiling gives, if it does. -/
def Compiled.unit? : Compiled → Option CodeUnit
  | .unit u => some u
  | .interpret | .fallBack => none

end Engine

/-- The engine goes on with the same program and policy, and has compiled. -/
structure Desk.Compiles (region : Except Fault Region) (entry : UnitEntry) (taint : Nat)
    (unit : Option CodeUnit) (d d' : Desk) : Prop where
  program_eq : d'.engine.program = d.engine.program
  policy_eq : d'.engine.policy = d.engine.policy
  compiles : d.books.Compiles d.engine.program d.engine.policy region entry taint unit d'.books

/-- The same, and has put the unit into the store. -/
structure Desk.Installs (region : Except Fault Region) (entry : UnitEntry) (taint : Nat)
    (put : CodeUnit → UnitStore → UnitStore) (d d' : Desk) : Prop where
  program_eq : d'.engine.program = d.engine.program
  policy_eq : d'.engine.policy = d.engine.policy
  compiles : ∃ unit b, d.books.Compiles d.engine.program d.engine.policy region entry taint unit b ∧
    d'.books = b.installed unit put

section

variable {region : Except Fault Region} {entry : UnitEntry} {taint : Nat} {d d' d₁ : Desk}
  {put : CodeUnit → UnitStore → UnitStore}

theorem Desk.Compiles.installs (h : d.Compiles region entry taint none d') :
    d.Installs region entry taint put d' :=
  ⟨h.program_eq, h.policy_eq, none, d'.books, h.compiles, rfl⟩

theorem Desk.Keeps.installs (h : d.Keeps d₁) (h' : d₁.Installs region entry taint put d') :
    d.Installs region entry taint put d' where
  program_eq := h'.program_eq.trans h.program_eq
  policy_eq := h'.policy_eq.trans h.policy_eq
  compiles := by
    have hcompiles := h'.compiles
    rw [h.program_eq, h.policy_eq, h.books_eq] at hcompiles
    exact hcompiles

/-- Work that comes to nothing before it compiles. -/
theorem Desk.Keeps.gaveUp (h : d.Keeps d') : d.Installs region entry taint put d' :=
  ⟨h.program_eq, h.policy_eq, none, _, .gaveUp, h.books_eq⟩

end

namespace Engine

theorem compile_compiles {region : Except Fault Region} {r : Region} (hr : region = .ok r)
    (entry : UnitEntry) (f : Frame) (d : Desk) :
    (compile r entry f d).Meets (fun c => d.Compiles region entry f.mask c.unit?)
      (fun _ => d.Compiles region entry f.mask none) True := by
  unfold compile
  rw [Work.desk_bind]
  cases ht : r.specialize d.guide with
  | ok verdict =>
    cases verdict with
    | committed t => exact ⟨rfl, rfl, .unit hr ht rfl rfl⟩
    | empty => exact ⟨rfl, rfl, .empty hr ht⟩
    | fallback reason => exact ⟨rfl, rfl, .gaveUp⟩
  | error e =>
    cases e with
    | mergeIncompatible reason => exact ⟨rfl, rfl, .ended⟩
    | _ => exact ⟨rfl, rfl, .gaveUp⟩

/-- Compiling, and then putting the unit into the store if there is one. -/
theorem compile_installs {region : Except Fault Region} {r : Region} (hr : region = .ok r)
    (entry : UnitEntry) (f : Frame) (d : Desk) {put : CodeUnit → UnitStore → UnitStore}
    {go : Compiled → Work Next}
    (hunit : ∀ u d', (go (.unit u) d').Leaves (· = { d' with store := put u d'.store }))
    (hnone : ∀ c d', c.unit? = none → (go c d').Leaves (· = d')) :
    ((compile r entry f >>= go) d).Leaves (d.Installs region entry f.mask put) := by
  refine Work.meets_bind (Outcome.Meets.imp (compile_compiles hr entry f d) (fun _ _ => id)
    (fun _ _ h => h.installs) id) (fun c d₁ h₁ => ?_)
  cases hc : c.unit? with
  | none =>
    rw [hc] at h₁
    exact (hnone c d₁ hc).imp (fun _ h => h ▸ h₁.installs)
  | some u =>
    cases c with
    | unit u' =>
      cases hc
      refine (hunit u d₁).imp ?_
      rintro _ rfl
      exact ⟨h₁.program_eq, h₁.policy_eq, some u, d₁.books, h₁.compiles, rfl⟩
    | interpret | fallBack => cases hc

-- ============================================================================
-- Merge points
-- ============================================================================

theorem compileMergePoint_installs (loc : Location) (f : Frame) (k : MergeKey) (d : Desk) :
    (compileMergePoint loc f k d).Leaves
      (d.Installs (Region.atMergePoint loc (d.engine.program.greens loc) f) (.mergePoint k) f.mask
        (fun u s => s.install k u)) := by
  refine Work.leaves_bind (Work.leaves_enter .compiling loc d) (fun _ h => h.gaveUp) ?_
  intro _ d₁ h₁
  rw [Work.desk_bind, h₁.program_eq, Work.bind_apply]
  cases hr : Region.atMergePoint loc (d.engine.program.greens loc) f with
  | error e => exact h₁.gaveUp
  | ok r =>
    refine Outcome.Leaves.imp ?_ (fun _ h => h₁.installs h)
    refine compile_installs rfl _ f d₁ (fun _ _ => rfl) (fun c d' hc => ?_)
    cases c with
    | unit u => cases hc
    | interpret => exact leaves_interpretAfter loc f d'
    | fallBack => exact leaves_fallBackAfter loc f d'

end Engine

/-- The desk of an engine that has turned to an arrival. -/
def Desk.armed (d : Desk) (loc : Location) : Desk :=
  { d with engine := { d.engine.turnInto .armed loc with
      stats := { d.engine.stats with
        mergePointArrivals := d.engine.stats.mergePointArrivals + 1 } } }

/-- The desk of an engine that has counted a key. -/
def Desk.counted (d : Desk) (k : HeatKey) : Desk :=
  { d with engine := { d.engine with heat := (d.engine.heat.observe k).2 } }

theorem Phase.canTurnInto_armed_iff {phase : Phase} :
    phase.canTurnInto .armed = true ↔ phase ≠ .compiling := by
  cases phase <;> decide

namespace Engine

section

variable {loc : Location} {f : Frame} {d : Desk} {u : CodeUnit}

/-- An engine that is compiling refuses an arrival. -/
theorem onMergePoint_refused (h : d.engine.phase = .compiling) (loc : Location) (f : Frame) :
    onMergePoint loc f d = .failed (.breach .illegalTransition) d := by
  unfold onMergePoint
  rw [Work.bind_apply, Work.enter, h]
  rfl

variable (h : d.engine.phase ≠ .compiling)

include h

/-- In every other phase it turns to it. -/
theorem armed_bind {β : Type} (next : Unit → Work β) :
    (Work.enter .armed loc >>= fun _ => Work.tally (fun s =>
      { s with mergePointArrivals := s.mergePointArrivals + 1 }) >>= next) d =
      next () (d.armed loc) := by
  rw [Work.bind_apply, Work.enter, if_pos (Phase.canTurnInto_armed_iff.mpr h)]
  rfl

theorem onMergePoint_inactive (hactive : d.isActive = false) :
    onMergePoint loc f d = interpretAfter loc f (d.armed loc) := by
  have hactive : (d.armed loc).isActive = false := hactive
  unfold onMergePoint
  rw [armed_bind h, Work.desk_bind, hactive]
  rfl

theorem onMergePoint_unit (hactive : d.isActive = true)
    (hu : CodeUnit.fitting? f (d.store.lookup (.ofFrame loc (d.engine.program.greens loc) f)) =
      some u) :
    onMergePoint loc f d = .done (.execute u f) (d.armed loc) := by
  have hactive : (d.armed loc).isActive = true := hactive
  have hu : CodeUnit.fitting? f ((d.armed loc).store.lookup
      (.ofFrame loc ((d.armed loc).engine.program.greens loc) f)) = some u := hu
  unfold onMergePoint
  rw [armed_bind h, Work.desk_bind, if_pos hactive, hu]
  rfl

theorem onMergePoint_counted (hactive : d.isActive = true) {k : MergeKey}
    (hk : k = .ofFrame loc (d.engine.program.greens loc) f)
    (hu : CodeUnit.fitting? f (d.store.lookup k) = none) :
    onMergePoint loc f d =
      (if (d.engine.heat.observe (.mergePoint k)).1 < d.engine.policy.mergePointThreshold ∨
          d.engine.emptyEntries.contains (.mergePoint k) = true then interpretAfter loc f
        else compileMergePoint loc f k) ((d.armed loc).counted (.mergePoint k)) := by
  subst hk
  have hactive : (d.armed loc).isActive = true := hactive
  have hu : CodeUnit.fitting? f ((d.armed loc).store.lookup
      (.ofFrame loc ((d.armed loc).engine.program.greens loc) f)) = none := hu
  unfold onMergePoint
  rw [armed_bind h, Work.desk_bind, if_pos hactive, hu]
  rfl

end

/-- The merge point instance of an arrival that an engine turns to. -/
def handles (e : Engine) : Next → Option MergeKey
  | .arrive loc f =>
    if e.phase = .compiling then none else some (.ofFrame loc (e.program.greens loc) f)
  | _ => none

/-- All that can happen at a merge point. -/
theorem onMergePoint_changes (loc : Location) (f : Frame) (d : Desk) :
    (onMergePoint loc f d).Leaves (d.Changes (d.engine.handles (.arrive loc f))) := by
  by_cases hphase : d.engine.phase = .compiling
  · rw [onMergePoint_refused hphase, handles, if_pos hphase]
    exact ⟨rfl, rfl, .rest⟩
  rw [handles, if_neg hphase]
  generalize hk : MergeKey.ofFrame loc (d.engine.program.greens loc) f = k
  have htaint : k.taint = f.mask := hk ▸ rfl
  by_cases hactive : d.isActive = true
  · cases hu : CodeUnit.fitting? f (d.store.lookup k) with
    | some u =>
      obtain ⟨hlookup, haccepts⟩ := CodeUnit.fitting?_eq_some hu
      rw [onMergePoint_unit hphase hactive (hk ▸ hu)]
      exact ⟨rfl, rfl, .passed (fun _ => ⟨u, hlookup, htaint ▸ CodeUnit.accepts_iff.mp haccepts⟩)⟩
    | none =>
      have hlacks : d.books.Lacks k :=
        fun u hlookup => htaint ▸ CodeUnit.fitting?_eq_none hu hlookup
      rw [onMergePoint_counted hphase hactive hk.symm hu]
      split
      · rename_i hcold
        refine (leaves_interpretAfter loc f _).imp ?_
        rintro _ rfl
        exact ⟨rfl, rfl, .cold hactive hlacks hcold⟩
      · rename_i hhot
        obtain ⟨hhot, hempty⟩ := not_or.mp hhot
        refine (compileMergePoint_installs loc f k _).imp (fun d' h => ?_)
        obtain ⟨unit, b, hb, hbooks⟩ := h.compiles
        refine ⟨h.program_eq, h.policy_eq, ?_⟩
        rw [hbooks]
        exact .hot hk.symm hactive hlacks (Nat.le_of_not_lt hhot) (Bool.eq_false_iff.mpr hempty)
          (htaint ▸ hb)
  · rw [onMergePoint_inactive hphase (Bool.eq_false_iff.mpr hactive)]
    refine (leaves_interpretAfter loc f _).imp ?_
    rintro _ rfl
    exact ⟨rfl, rfl, .passed (fun h => absurd h hactive)⟩

-- ============================================================================
-- Promotion sites
-- ============================================================================

end Engine

theorem UnitStore.decide_eq_specialize {s : UnitStore} {threshold count : Nat} {site : Location}
    {v : Value} {f : Frame} (h : (s.decide threshold site v count f).1 = .specialize) :
    (s.decide threshold site v count f).2 = s ∧ s.isGeneric site = false ∧
      CodeUnit.fitting? f (s.lookupPromotion site v f.mask) = none ∧ threshold ≤ count ∧
      s.hasRoom site v = true := by
  unfold decide at h ⊢
  split at h
  · split at h
    · cases h
    · split at h <;> cases h
  · rename_i hgeneric
    rw [if_neg hgeneric]
    split at h
    · cases h
    · rename_i hnone
      rw [hnone]
      split at h
      · cases h
      · split at h
        · rename_i hcount hroom
          simp [hcount, hroom, hgeneric]
          omega
        · cases h

theorem UnitStore.decide_eq_specializeGeneric {s : UnitStore} {threshold count : Nat}
    {site : Location} {v : Value} {f : Frame}
    (h : (s.decide threshold site v count f).1 = .specializeGeneric) :
    (s.decide threshold site v count f).2 = s ∧ s.isGeneric site = true ∧
      CodeUnit.fitting? f (s.genericUnit site) = none ∧ threshold ≤ count := by
  unfold decide at h ⊢
  split at h
  · rename_i hgeneric
    rw [if_pos hgeneric]
    split at h
    · cases h
    · rename_i hnone
      rw [hnone]
      split at h
      · rename_i hcount
        exact ⟨rfl, hgeneric, rfl, hcount⟩
      · cases h
  · split at h
    · cases h
    · split at h
      · cases h
      · split at h <;> cases h

/-- The desk of an engine that has decided about a value. -/
def Desk.decided (d : Desk) (site : Location) (v : Value) (f : Frame) : Desk :=
  { d.counted (d.books.heatKey site v) with store := (d.books.decide d.engine.policy site v f).2 }

theorem Desk.books_decided {d : Desk} {site : Location} {v : Value} {f : Frame}
    (h : (d.books.decide d.engine.policy site v f).2 = (d.books.noted site v).store) :
    (d.decided site v f).books = d.books.noted site v :=
  congrArg (fun store => { d.books.noted site v with store }) h

namespace Engine

theorem decidePromotion_eq (site : Location) (v : Value) (f : Frame) (d : Desk) :
    decidePromotion site v f d =
      .done (d.books.decide d.engine.policy site v f).1 (d.decided site v f) := rfl

theorem compilePromotion_installs (site : Location) (f : Frame) (entry : UnitEntry)
    {region : Except Fault Region} {r : Region} (hr : region = .ok r)
    (install : CodeUnit → UnitStore → Bool × UnitStore) (d : Desk) :
    (compilePromotion site f entry r install d).Leaves (fun d' => d.Keeps d' ∨
      (d.engine.emptyEntries.contains entry = false ∧
        d.Installs region entry f.mask (fun u s => (install u s).2) d')) := by
  unfold compilePromotion
  rw [Work.desk_bind]
  split
  · refine (leaves_fallBackAfter site f d).imp ?_
    rintro _ rfl
    exact Or.inl ⟨rfl, rfl, rfl⟩
  · rename_i hempty
    refine Work.leaves_bind (Work.leaves_enter .compiling site d) (fun _ h => Or.inl h) ?_
    intro _ d₁ h₁
    refine Outcome.Leaves.imp ?_
      (fun _ h => Or.inr ⟨Bool.eq_false_iff.mpr hempty, h₁.installs h⟩)
    refine compile_installs hr entry f d₁ (fun _ _ => rfl) (fun c d' hc => ?_)
    cases c with
    | unit u => cases hc
    | interpret => exact leaves_fallBackAfter site f d'
    | fallBack => exact leaves_fallBackAfter site f d'

/-- Compiling after a decision that has left the store alone. -/
theorem compilePromotion_changes {d : Desk} {site : Location} {v : Value} {f : Frame}
    (hactive : d.books.isActive d.engine.policy = true)
    (hstore : (d.books.decide d.engine.policy site v f).2 = (d.books.noted site v).store)
    {entry : UnitEntry} {region : Except Fault Region} {r : Region} (hr : region = .ok r)
    {install : CodeUnit → UnitStore → Bool × UnitStore}
    (hchange : ∀ unit b, d.books.empty.contains entry = false →
      (d.books.noted site v).Compiles d.engine.program d.engine.policy region entry f.mask unit b →
      d.books.Change d.engine.program d.engine.policy none
        (b.installed unit (fun u s => (install u s).2))) :
    (compilePromotion site f entry r install (d.decided site v f)).Leaves (d.Changes none) := by
  have hnoted : d.Changes none (d.decided site v f) := ⟨rfl, rfl, .noted site v f hactive⟩
  refine (compilePromotion_installs site f entry hr install _).imp (fun d' h => ?_)
  rcases h with h | ⟨hempty, h⟩
  · exact hnoted.keeps h
  · obtain ⟨unit, b, hb, hb'⟩ := h.compiles
    rw [Desk.books_decided hstore] at hb
    exact ⟨h.program_eq, h.policy_eq, hb' ▸ hchange unit b hempty hb⟩

/-- All that can happen at a promotion site. -/
theorem onPromotion_changes (site : Location) (reg : Reg) (f : Frame) (d : Desk) :
    (onPromotion site reg f d).Leaves (d.Changes none) := by
  refine Work.leaves_bind (Work.leaves_tally _ d) (fun _ h => h.rest) (fun _ d₁ h₁ => ?_)
  refine Outcome.Leaves.imp ?_ (fun _ h => h₁.changes h)
  rw [Work.desk_bind]
  split
  · rename_i hactive
    have hactive : d₁.books.isActive d₁.engine.policy = true := (Bool.and_eq_true_iff.mp hactive).1
    have hnoted : d₁.Changes none (d₁.decided site (f.get reg) f) :=
      ⟨rfl, rfl, .noted site (f.get reg) f hactive⟩
    dsimp only
    rw [Work.bind_apply, decidePromotion_eq]
    cases hdecision : (d₁.books.decide d₁.engine.policy site (f.get reg) f).1 with
    | cached u => exact hnoted
    | fallback => exact (leaves_fallBackAfter site f _).imp (fun _ h => h ▸ hnoted)
    | specialize =>
      have hstore := (UnitStore.decide_eq_specialize hdecision).1
      dsimp only
      rw [Work.bind_apply]
      cases hr : Region.atPromotion site reg f with
      | error e => exact hnoted
      | ok r =>
        refine compilePromotion_changes hactive hstore hr (fun unit b hempty hb => ?_)
        exact .promoted hactive hdecision hempty hb
    | specializeGeneric =>
      have hstore := (UnitStore.decide_eq_specializeGeneric hdecision).1
      dsimp only
      rw [Work.bind_apply]
      cases hr : inWidth site.next? with
      | error e => exact hnoted
      | ok next =>
        cases next?_eq_after hr
        refine compilePromotion_changes hactive hstore rfl (fun unit b hempty hb => ?_)
        exact .generic hactive hdecision hempty hb
  · exact (leaves_fallBackAfter site f _).imp (fun _ h => h ▸ ⟨rfl, rfl, .rest⟩)

-- ============================================================================
-- Turns
-- ============================================================================

/-- All that can happen in a segment. -/
theorem interpret_changes (fuel : Nat) (single : Bool) (loc : Location) (f : Frame) (d : Desk) :
    (interpret fuel single loc f d).Leaves (d.Changes none) := by
  unfold interpret Machine.segment
  cases d.engine.interpreter.resume fuel loc f d.profile.io with
  | starved => exact trivial
  | done e t => exact ⟨rfl, rfl, .segment t.seen false⟩
  | failed e t =>
    cases e with
    | gap => exact ⟨rfl, rfl, .segment t.seen true⟩
    | _ => exact ⟨rfl, rfl, .segment t.seen false⟩

theorem runUnit_keeps (fuel : Nat) (u : CodeUnit) (f : Frame) (d : Desk) :
    (runUnit fuel u f d).Leaves d.Keeps := by
  unfold runUnit
  cases u.run d.engine.unitMachine fuel f d.io with
  | starved => exact trivial
  | done e io => exact ⟨rfl, rfl, rfl⟩
  | failed e io => exact ⟨rfl, rfl, rfl⟩

theorem afterUnit_changes (single : Bool) (e : Exit) (d : Desk) :
    (afterUnit single e d).Leaves (d.Changes none) := by
  unfold afterUnit
  cases e.kind with
  | promotion reg => exact onPromotion_changes e.loc reg e.frame d
  | fallback | mergePoint | returned v => exact ⟨rfl, rfl, .rest⟩

/-- Turning into a phase and counting it, before something that may change the books. -/
theorem changes_after_enter {phase : Phase} {loc : Location} {change : Stats → Stats}
    {w : Work Next} (hw : ∀ d, (w d).Leaves (d.Changes none)) (d : Desk) :
    ((do
      Work.enter phase loc
      Work.tally change
      w : Work Next) d).Leaves (d.Changes none) := by
  refine Work.leaves_bind (Work.leaves_enter phase loc d) (fun _ h => h.rest) (fun _ d₁ h₁ => ?_)
  refine Outcome.Leaves.imp ?_ (fun _ h => h₁.changes h)
  refine Work.leaves_bind (Work.leaves_tally change d₁) (fun _ h => h.rest) (fun _ d₂ h₂ => ?_)
  exact (hw d₂).imp (fun _ h => h₂.changes h)

/-- All that can happen in a turn. -/
theorem turn_changes (fuel : Nat) (single : Bool) (next : Next) (d : Desk) :
    (turn fuel single next d).Leaves (d.Changes (d.engine.handles next)) := by
  cases next with
  | arrive loc f => exact onMergePoint_changes loc f d
  | interpret loc f => exact changes_after_enter (interpret_changes fuel single loc f) d
  | fallBack loc f => exact changes_after_enter (interpret_changes fuel single loc f) d
  | execute u f =>
    refine changes_after_enter (fun d₁ => ?_) d
    refine Work.leaves_bind (runUnit_keeps fuel u f d₁) (fun _ h => h.rest) (fun e d₂ h₂ => ?_)
    exact (afterUnit_changes single e d₂).imp (fun _ h => h₂.changes h)
  | finish e => exact ⟨rfl, rfl, .rest⟩

end Engine

end HotPath
