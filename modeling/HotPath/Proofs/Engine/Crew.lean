/-
  HotPath.Proofs.Engine.Crew

  Workers that share a store. Any number of engines of a program take up calls, in any
  order and each with a policy of its own, and take their turns in any order.
  `Crew.promotions_stay_bounded` says that what they record about promotion sites stays
  bounded and consistent all the same: only values that a site has shown have units,
  there is always room for a value that is to be compiled, and no engine counts more
  values at a site than the threshold.

  The invariant (`Crew.InOrder`) is that the store is in order and that the counters of
  every worker go with it. A step of one worker only lets the store grow, so it can do
  the counters of the others no harm.
-/
import HotPath.Proofs.Engine.Workers
import HotPath.Proofs.Unit.Promotions
import Mathlib.Logic.Function.Basic

namespace HotPath

-- ============================================================================
-- Changes
-- ============================================================================

namespace Books

variable {p : Program} {pol : Policy} {handled : Option MergeKey} {b b' : Books}

theorem Compiles.sameSites {region : Except Fault Region} {entry : UnitEntry} {taint : Nat}
    {unit : Option CodeUnit} (h : b.Compiles p pol region entry taint unit b') :
    b.store.SameSites b'.store := by
  cases h with
  | unit | empty | gaveUp | ended => exact ⟨rfl, rfl, rfl⟩

/-- Compiling and installing, after which the store is still in order. -/
theorem Compiles.proceeds {region : Except Fault Region} {entry : UnitEntry} {taint : Nat}
    {unit : Option CodeUnit} {s : UnitStore} {put : CodeUnit → UnitStore → UnitStore}
    (h : b.Compiles p pol region entry taint unit b') (hb : s.Proceeds b.heat b.store)
    (hput : ∀ u s', b.store.SameSites s' → s'.Orderly →
      (put u s').Orderly ∧ s'.Grows (put u s')) :
    s.Proceeds (b'.installed unit put).heat (b'.installed unit put).store := by
  have hsame := h.sameSites
  have horderly := hsame.orderly hb.orderly
  have hgrows := hb.grows.trans hsame.grows
  have hfits : b'.heat.Fits b'.store := h.heat_eq ▸ hb.fits.grows hsame.grows
  cases unit with
  | none => exact ⟨horderly, hgrows, hfits⟩
  | some u =>
    obtain ⟨horderly', hgrows'⟩ := hput u b'.store hsame horderly
    exact ⟨horderly', hgrows.trans hgrows', hfits.grows hgrows'⟩

/-- Noting a value that has to be compiled. -/
theorem noted_of_specialize {site : Location} {v : Value} {f : Frame} (hs : b.store.Orderly)
    (h : (b.decide pol site v f).1 = .specialize) :
    (b.noted site v).store.isGeneric site = false ∧
      ((b.noted site v).store.shown site).contains v = true := by
  obtain ⟨-, hg, -⟩ := UnitStore.decide_eq_specialize h
  exact ⟨hg, ((hs.noted site v).single hg).2⟩

/-- Every change keeps the store in order, and counters with it. -/
theorem Change.proceeds (h : b.Change p pol handled b') (hs : b.store.Orderly)
    (hh : b.heat.Fits b.store) : b.store.Proceeds b'.heat b'.store := by
  have hcounted : ∀ k, b.store.Proceeds (b.counted (.mergePoint k)).heat b.store := by
    refine fun k => ⟨hs, .refl _, hh.observe hs (fun site v hk => ?_)⟩
    cases hk
  have hnoted : ∀ site v, b.store.Proceeds (b.noted site v).heat (b.noted site v).store :=
    fun site v => hs.proceeds_noted hh site v
  cases h with
  | rest => exact ⟨hs, .refl _, hh⟩
  | passed => exact ⟨hs, .refl _, hh⟩
  | @cold k => exact hcounted k
  | @hot loc f k unit b₁ hk hactive hlacks hhot hempty h =>
    refine h.proceeds (hcounted k) (fun u s' _ hs' => ?_)
    have hsame : s'.SameSites (s'.install k u) := ⟨rfl, rfl, rfl⟩
    exact ⟨hsame.orderly hs', hsame.grows⟩
  | segment seen gap =>
    have hseg := hs.proceeds_recordSegment hh seen
    have hsame : (b.segmented seen).store.SameSites (b.segmented seen).store.disable :=
      ⟨rfl, rfl, rfl⟩
    cases gap with
    | false => exact hseg
    | true =>
      exact ⟨hsame.orderly hseg.orderly, hseg.grows.trans hsame.grows, hseg.fits.grows hsame.grows⟩
  | noted site v f hactive =>
    have hn := hnoted site v
    obtain ⟨horderly, hgrows⟩ := hn.orderly.decide pol.promotionThreshold site v
      (b.heat.observe (b.heatKey site v)).1 f
    exact ⟨horderly, hn.grows.trans hgrows, hn.fits.grows hgrows⟩
  | @promoted site reg f unit b₁ hactive hdecision hempty h =>
    refine h.proceeds (hnoted site (f.get reg)) (fun u s' hsame hs' => hs'.installPromotion ?_)
    rw [hsame.shown_eq]
    exact (noted_of_specialize hs hdecision).2
  | @generic site v f unit b₁ hactive hdecision hempty h =>
    exact h.proceeds (hnoted site v) (fun u s' _ hs' => hs'.installGeneric site u)

/-- A unit for a value that was just committed finds room, and is handed out for the value
from now on. -/
theorem Change.installed_of_push (h : b.Change p pol handled b') (hs : b.store.Orderly)
    {u : CodeUnit} (hpush : b'.committed = b.committed.push u) {site : Location} {v : Value}
    (hentry : u.entry = .promotion site v) :
    b'.store.isGeneric site = false ∧
      b'.store.lookupPromotion site v u.entryTaint = some u := by
  obtain ⟨f, hdecision, htaint, -, hstore⟩ := h.eq_of_push hpush hentry
  obtain ⟨hg, hv⟩ := noted_of_specialize hs hdecision
  have hsame : (b.noted site v).store.SameSites (b.noted site v).store.freshId.2 := ⟨rfl, rfl, rfl⟩
  have hroom := (hsame.orderly (hs.noted site v).orderly).hasRoom
    ((hsame.isGeneric_eq site).trans hg) (hsame.shown_eq site ▸ hv)
  have hinstalled := UnitStore.installPromotion_of_hasRoom ⟨v, f.mask, u⟩ hroom
  rw [hstore, htaint, UnitStore.lookupPromotion_installPromotion hinstalled,
    if_pos ⟨rfl, ValueUnit.isFor_iff.mpr ⟨rfl, rfl⟩⟩]
  exact ⟨UnitStore.isGeneric_installPromotion hinstalled, rfl⟩

end Books

/-- Counters that have counted nothing go with every store. -/
theorem Engine.IsBlank.fits {e : Engine} {p : Program} {pol : Policy} (h : e.IsBlank p pol)
    (s : UnitStore) : e.heat.Fits s := by
  have hnone : ∀ site, e.heat.promoted site = [] := by
    intro site
    unfold Heat.promoted
    rw [h.counts_eq]
    rfl
  refine ⟨fun site v _ hv => ?_, fun site => ?_⟩
  · rw [hnone] at hv
    cases hv
  · rw [hnone]
    exact Nat.zero_le _

-- ============================================================================
-- Crews
-- ============================================================================

/-- Workers and the store that they share. -/
structure Crew (ι : Type) where
  store : UnitStore
  workers : ι → Worker

namespace Crew

open Relation

variable {ι : Type} {p : Program} {pol : ι → Policy} {e : ι → Engine} {c c' : Crew ι}

/-- All workers are new and idle, and nothing is installed. -/
def new (threshold : Nat) (e : ι → Engine) : Crew ι :=
  ⟨.ofThreshold threshold, fun i => .idle (e i)⟩

/-- The store is in order, and the counters of all workers go with it. -/
structure InOrder (c : Crew ι) : Prop where
  orderly : c.store.Orderly
  fits : ∀ i, (c.workers i).engine.heat.Fits c.store

theorem inOrder_new (he : ∀ i, (e i).IsNew p (pol i)) (threshold : Nat) :
    (new threshold e).InOrder :=
  ⟨UnitStore.orderly_ofThreshold threshold, fun i => (he i).isBlank.fits _⟩

variable [DecidableEq ι]

/-- One of the workers takes a step. -/
inductive Step (i : ι) (c : Crew ι) : Crew ι → Prop where
  | mk {a : Act} {w : Worker} {s : UnitStore} (h : (c.workers i).step? c.store a = some (w, s)) :
    Step i c ⟨s, Function.update c.workers i w⟩

/-- Workers take steps in some order. -/
def Runs : Crew ι → Crew ι → Prop := ReflTransGen (fun c c' => ∃ i, Step i c c')

/-- A step of one worker keeps everything in order. -/
theorem InOrder.step {i : ι} (h : c.InOrder) (hs : Step i c c') :
    c'.InOrder ∧ c.store.Grows c'.store := by
  cases hs with
  | @mk a w s hstep =>
    have hproceeds := (Worker.advances_of_step? hstep).change.proceeds h.orderly (h.fits i)
    refine ⟨⟨hproceeds.orderly, fun j => ?_⟩, hproceeds.grows⟩
    show (Function.update c.workers i w j).engine.heat.Fits s
    by_cases hj : j = i
    · subst hj
      rw [Function.update_self]
      exact hproceeds.fits
    · rw [Function.update_of_ne hj]
      exact (h.fits j).grows hproceeds.grows

theorem InOrder.runs (h : c.InOrder) (hr : Runs c c') : c'.InOrder ∧ c.store.Grows c'.store := by
  induction hr with
  | refl => exact ⟨h, .refl _⟩
  | tail _ hs ih =>
    obtain ⟨i, hs⟩ := hs
    obtain ⟨hin, hgrows⟩ := ih.1.step hs
    exact ⟨hin, ih.2.trans hgrows⟩

theorem runs_of_steps {i : ι} {x y : Worker × UnitStore} (hxy : ReflTransGen Worker.Step x y)
    (h : Runs c ⟨x.2, Function.update c.workers i x.1⟩) :
    Runs c ⟨y.2, Function.update c.workers i y.1⟩ := by
  induction hxy with
  | refl => exact h
  | @tail y z _ hstep ih =>
    obtain ⟨a, ha⟩ := hstep
    have hworker : ((Function.update c.workers i y.1) i).step? y.2 a = some (z.1, z.2) := by
      rw [Function.update_self]
      exact ha
    have hz := Step.mk (c := ⟨y.2, Function.update c.workers i y.1⟩) hworker
    rw [Function.update_idem] at hz
    exact ih.tail ⟨i, hz⟩

/-- A call of an idle worker is a run, whether it succeeds or fails. -/
theorem runs_of_make {i : ι} (hidle : (c.workers i).job = none) {call : Engine.Call} {fuel : Nat}
    {io : Console} {d : Desk}
    (hd : (call.make fuel ⟨(c.workers i).engine, c.store, io⟩).state? = some d) :
    Runs c ⟨d.store, Function.update c.workers i (.idle d.engine)⟩ := by
  refine runs_of_steps (Engine.Call.steps_of_make hd) ?_
  have hworker : Worker.idle (c.workers i).engine = c.workers i := by
    unfold Worker.idle
    rw [← hidle]
  rw [hworker, Function.update_eq_self]
  exact .refl

/-- At most one unit is committed in a step, and one for a value is installed. -/
theorem InOrder.committed {i : ι} (h : c.InOrder) (hs : Step i c c') :
    (c'.workers i).engine.committed = (c.workers i).engine.committed ∨
      ∃ u, (c'.workers i).engine.committed = (c.workers i).engine.committed.push u ∧
        ∀ site v, u.entry = .promotion site v →
          c'.store.lookupPromotion site v u.entryTaint = some u := by
  cases hs with
  | @mk a w s hstep =>
    have hchange := (Worker.advances_of_step? hstep).change
    have hworker : (Function.update c.workers i w) i = w := Function.update_self i w c.workers
    show ((Function.update c.workers i w) i).engine.committed = _ ∨
      ∃ u, ((Function.update c.workers i w) i).engine.committed = _ ∧ _
    rw [hworker]
    rcases hchange.committed_eq with hsame | ⟨u, hpush⟩
    · exact Or.inl hsame
    · exact Or.inr ⟨u, hpush, fun site v hentry =>
        (hchange.installed_of_push h.orderly hpush hentry).2⟩

/-- Over any calls of any number of engines that share a store, and for every site, what
is recorded is bounded by the threshold:
a site that is not generic has units only for values it has shown, and it has shown few
enough; a value that was noted at it finds room, and so does a unit that was compiled
for it; a generic site stays generic and has no units for single values; and every
engine counts few enough values at the site. -/
theorem promotions_stay_bounded (he : ∀ i, (e i).IsNew p (pol i)) {T : Nat} (hT : 1 ≤ T)
    (h : Runs (new T e) c) (site : Location) :
    (c.store.isGeneric site = false →
      (∀ x ∈ (c.store.site site).entries, (c.store.shown site).contains x.value = true) ∧
        (c.store.shown site).size ≤ T) ∧
    (∀ v, (c.store.heatKey site v).2.isGeneric site = false →
      (c.store.heatKey site v).2.hasRoom site v = true ∧
        ∀ taint u, ((c.store.heatKey site v).2.freshId.2.installPromotion site
          ⟨v, taint, u⟩).1 = true) ∧
    (∀ i c', Step i c c' →
      (c'.workers i).engine.committed = (c.workers i).engine.committed ∨
        ∃ u, (c'.workers i).engine.committed = (c.workers i).engine.committed.push u ∧
          ∀ v, u.entry = .promotion site v →
            c'.store.lookupPromotion site v u.entryTaint = some u) ∧
    (∀ c', Runs c c' → c.store.isGeneric site = true →
      c'.store.isGeneric site = true ∧ (c'.store.site site).entries = []) ∧
    ∀ i, ((c.workers i).engine.heat.promoted site).length ≤ T ∧
      (c.workers i).engine.heat.counts.keys.count (.generic site) ≤ 1 := by
  obtain ⟨hin, hgrows⟩ := (inOrder_new he T).runs h
  have hthreshold : c.store.threshold = T := hgrows.threshold_eq.trans (Nat.max_eq_left hT)
  refine ⟨fun hg => ⟨hin.orderly.shown_of_entry site, hthreshold ▸ hin.orderly.shown_le site hg⟩,
    fun v hg => ?_, fun i c' hs => ?_, fun c' hr hg => ?_, fun i => ⟨?_, ?_⟩⟩
  · have hnoted := hin.orderly.noted site v
    have hroom := hnoted.orderly.hasRoom hg (hnoted.single hg).2
    exact ⟨hroom, fun taint u => UnitStore.installPromotion_of_hasRoom ⟨v, taint, u⟩ hroom⟩
  · refine (hin.committed hs).imp_right ?_
    rintro ⟨u, hpush, hinstalled⟩
    exact ⟨u, hpush, hinstalled site⟩
  · have hg' := (hin.runs hr).2.generic site hg
    exact ⟨hg', UnitStore.entries_eq_nil hg'⟩
  · exact hthreshold ▸ (hin.fits i).few site
  · exact List.nodup_iff_count_le_one.mp (c.workers i).engine.heat.counts.nodup_keys _

-- ============================================================================
-- Two engines at one site
-- ============================================================================

/-- Follows a schedule, as long as workers can take their steps. -/
def follow : List (ι × Act) → Crew ι → Option (Crew ι)
  | [], c => some c
  | (i, a) :: acts, c =>
    match (c.workers i).step? c.store a with
    | some (w, s) => follow acts ⟨s, Function.update c.workers i w⟩
    | none => none

theorem runs_of_follow {acts : List (ι × Act)} (h : follow acts c = some c') : Runs c c' := by
  induction acts generalizing c with
  | nil =>
    cases h
    exact .refl
  | cons act acts ih =>
    rw [follow] at h
    split at h
    · next w s hstep => exact .head ⟨act.1, .mk hstep⟩ (ih h)
    · cases h

/-- Two engines report a value each and run the units that they compile for it. They take
their turns in no particular order. -/
def echoActs : List (Bool × Act) :=
  [(false, .call (.arrival (Arrival.echoArrival 0 7 3)) {}),
    (true, .call (.arrival (Arrival.echoArrival 0 8 3)) {}),
    (true, .turn 9), (false, .turn 9), (false, .turn 9), (true, .turn 9)]

/-- The report of a third value. -/
def echoCall : Engine.Call := .arrival (Arrival.echoArrival 0 9 3)

/-- With room for two values, both values have a unit. A third one turns the site generic,
and is not counted for itself. -/
theorem promotions_stay_bounded_echo :
    ∃ c c', Runs (new 2 (fun _ : Bool => Arrival.echoEngine)) c ∧ Runs c c' ∧
      c.store.promotionEntries ⟨0, 0⟩ = 2 ∧ (c.store.shown ⟨0, 0⟩).size ≤ 2 ∧
      c'.store.isGeneric ⟨0, 0⟩ = true ∧ (c'.store.site ⟨0, 0⟩).entries = [] ∧
      ∀ i, ((c'.workers i).engine.heat.promoted ⟨0, 0⟩).length ≤ 2 := by
  have hrun : (follow echoActs (new 2 (fun _ : Bool => Arrival.echoEngine))).any (fun c =>
      (c.store.isGeneric ⟨0, 0⟩ = false ∧ c.store.promotionEntries ⟨0, 0⟩ = 2) ∧
        (c.workers true).job.isNone = true ∧
        (echoCall.make 9 ⟨(c.workers true).engine, c.store, {}⟩).state?.any
          (fun d => d.store.isGeneric ⟨0, 0⟩) = true) = true := by decide +kernel
  obtain ⟨c, hc, hrun⟩ := (Option.any_eq_true _ _).mp hrun
  obtain ⟨⟨hg, hunits⟩, hidle, hcall⟩ := of_decide_eq_true hrun
  obtain ⟨d, hd, hg'⟩ := (Option.any_eq_true _ _).mp hcall
  have hnew : ∀ _ : Bool, Arrival.echoEngine.IsNew Arrival.echoProgram Arrival.echoEngine.policy :=
    fun _ => Engine.isNew_ofValid rfl
  have hruns := runs_of_follow hc
  have hruns' := runs_of_make (Option.isNone_iff_eq_none.mp hidle) hd
  have hbounded := promotions_stay_bounded hnew (by decide) hruns ⟨0, 0⟩
  have hbounded' := promotions_stay_bounded hnew (by decide) (hruns.trans hruns') ⟨0, 0⟩
  exact ⟨c, _, hruns, hruns', hunits, (hbounded.1 hg).2, hg', (hbounded'.2.2.2.1 _ .refl hg').2,
    fun i => (hbounded'.2.2.2.2 i).1⟩

end Crew

end HotPath
