/-
  HotPath.Proofs.Engine.Generic

  The units for all values of a promotion site. A generic site holds one such unit, made
  for frames of one taint. Frames of this taint run it; a frame of another taint gets a
  unit of its own once the site is hot, and this replaces the first. So the units that an
  engine has compiled for all values of a site differ in taint from each one to the next,
  and the last one is installed (`Worker.Diary.generic_units_alternate`). No taint gets a
  second unit while the site sees no other, but when it does, it can
  (`Worker.Diary.generic_units_repeat`).

  The invariant is `Books.Alternates`. It rests on the fact that nothing but installing
  such a unit touches the one that is there (`UnitStore.KeepsGeneric`).
-/
import HotPath.Proofs.Engine.Thresholds
import Mathlib.Data.List.Chain

namespace HotPath

-- ============================================================================
-- Stores
-- ============================================================================

namespace SiteUnits

theorem generic?_eq_none {s : SiteUnits} (h : s.isMegamorphic = false) : s.generic? = none := by
  cases s with
  | megamorphic u => cases h
  | uninitialized | monomorphic e | polymorphic es => rfl

end SiteUnits

namespace UnitStore

/-- No unit for all values of a site has come or gone. -/
def KeepsGeneric (s s' : UnitStore) : Prop := ∀ site, s'.genericUnit site = s.genericUnit site

namespace KeepsGeneric

variable {s s' s'' : UnitStore}

theorem refl (s : UnitStore) : s.KeepsGeneric s := fun _ => rfl

theorem trans (h : s.KeepsGeneric s') (h' : s'.KeepsGeneric s'') : s.KeepsGeneric s'' :=
  fun site => (h' site).trans (h site)

theorem insert {loc : Location} {units : SiteUnits} (h : units.generic? = s.genericUnit loc) :
    s.KeepsGeneric { s with sites := s.sites.insert loc units } := by
  intro site
  unfold genericUnit at h ⊢
  rw [site_insert]
  split
  · next heq => rw [h, heq]
  · rfl

theorem makeGeneric (s : UnitStore) (loc : Location) : s.KeepsGeneric (s.makeGeneric loc).2 := by
  unfold UnitStore.makeGeneric
  split
  · exact refl s
  · next hg => exact insert (SiteUnits.generic?_eq_none (Bool.eq_false_iff.mpr hg)).symm

theorem installPromotion (s : UnitStore) (loc : Location) (new : ValueUnit) :
    s.KeepsGeneric (s.installPromotion loc new).2 :=
  insert (SiteUnits.generic?_update _ new s.threshold)

theorem decide (s : UnitStore) (threshold : Nat) (site : Location) (v : Value) (count : Nat)
    (f : Frame) : s.KeepsGeneric (s.decide threshold site v count f).2 := by
  rcases s.decide_snd threshold site v count f with heq | heq
  · rw [heq]
    exact refl s
  · rw [heq]
    exact makeGeneric s site

theorem heatKey (s : UnitStore) (loc : Location) (v : Value) :
    s.KeepsGeneric (s.heatKey loc v).2 := by
  obtain ⟨observed, heq | heq⟩ := s.heatKey_snd loc v
  · rw [heq]
    exact fun _ => rfl
  · rw [heq]
    exact fun site => makeGeneric s loc site

theorem recordSegment (h : Heat) (s : UnitStore) (seen : Array Observation) :
    s.KeepsGeneric (h.recordSegment s seen).2 := by
  refine Heat.recordAll_preserves (P := fun _ s' => s.KeepsGeneric s') (fun h' s' o hs => ?_)
    (refl s) seen
  cases o with
  | promotion site v => exact hs.trans (heatKey s' site v)
  | split site taken => exact hs

end KeepsGeneric

variable {s : UnitStore} {loc : Location} {u : CodeUnit}

theorem isGeneric_of_genericUnit (h : s.genericUnit loc = some u) : s.isGeneric loc = true := by
  cases hg : s.isGeneric loc with
  | true => rfl
  | false =>
    have hnone : s.genericUnit loc = none := SiteUnits.generic?_eq_none hg
    rw [hnone] at h
    cases h

theorem genericUnit_installGeneric (hg : s.isGeneric loc = true) (u : CodeUnit) (site : Location) :
    (s.installGeneric loc u).2.genericUnit site = if loc = site then some u
      else s.genericUnit site := by
  unfold UnitStore.installGeneric genericUnit
  rw [if_pos hg, site_insert]
  split <;> rfl

/-- A frame of the taint that the unit was made for runs it. -/
theorem decide_of_genericUnit {v : Value} {f : Frame} (h : s.genericUnit loc = some u)
    (haccepts : u.accepts f = true) (threshold count : Nat) :
    s.decide threshold loc v count f = (.cached u, s) := by
  have hfit : CodeUnit.fitting? f (some u) = some u := if_pos haccepts
  unfold UnitStore.decide
  rw [if_pos (isGeneric_of_genericUnit h), h, hfit]

end UnitStore

-- ============================================================================
-- What was compiled
-- ============================================================================

namespace Books

/-- The units that were compiled for all values of a site, in order. -/
def genericUnits (b : Books) (site : Location) : List CodeUnit :=
  b.committed.toList.filter (fun u => u.entry = .generic site)

/-- The last unit that was compiled for all values of a site is installed, and each was
made for another taint than the one before. -/
structure Alternates (b : Books) : Prop where
  installed : ∀ site, b.store.genericUnit site = (b.genericUnits site).getLast?
  differ : ∀ site, (b.genericUnits site).IsChain (fun u u' => u.entryTaint ≠ u'.entryTaint)

variable {p : Program} {pol : Policy} {b b' b₁ : Books} {u : CodeUnit} {site : Location}

theorem genericUnits_pushed (b : Books) (u : CodeUnit) (s : UnitStore) (site : Location) :
    (b.pushed u s).genericUnits site =
      b.genericUnits site ++ if u.entry = .generic site then [u] else [] :=
  b.filter_pushed u s _

namespace Alternates

theorem of_genericUnits_eq (h : b.Alternates) (hunits : ∀ site, b'.genericUnits site =
    b.genericUnits site) (hs : b.store.KeepsGeneric b'.store) : b'.Alternates := by
  refine ⟨fun site => ?_, fun site => ?_⟩
  · rw [hs site, hunits]
    exact h.installed site
  · rw [hunits]
    exact h.differ site

theorem silent (h : b.Alternates) (hcommitted : b'.committed = b.committed)
    (hs : b.store.KeepsGeneric b'.store) : b'.Alternates := by
  refine h.of_genericUnits_eq (fun site => ?_) hs
  unfold genericUnits
  rw [hcommitted]

/-- A unit is installed for something else. -/
theorem pushed {s : UnitStore} (h : b.Alternates) (hentry : ∀ site, u.entry ≠ .generic site)
    (hs : b.store.KeepsGeneric s) : (b.pushed u s).Alternates := by
  refine h.of_genericUnits_eq (fun site => ?_) hs
  rw [genericUnits_pushed, if_neg (hentry site), List.append_nil]

/-- A unit is installed for all values of a site, where the one that is there does not
fit. -/
theorem installGeneric {f : Frame} (h : b.Alternates) (hg : b.store.isGeneric site = true)
    (hfit : CodeUnit.fitting? f (b.store.genericUnit site) = none)
    (hentry : u.entry = .generic site) (htaint : u.entryTaint = f.mask) :
    (b.pushed u (b.store.freshId.2.installGeneric site u).2).Alternates := by
  have hstore : ∀ site', (b.store.freshId.2.installGeneric site u).2.genericUnit site' =
      if site = site' then some u else b.store.genericUnit site' :=
    UnitStore.genericUnit_installGeneric (s := b.store.freshId.2) hg u
  have hnew : ∀ site', (b.pushed u (b.store.freshId.2.installGeneric site u).2).genericUnits
      site' = b.genericUnits site' ++ if site = site' then [u] else [] := by
    intro site'
    rw [genericUnits_pushed, hentry]
    simp only [UnitEntry.generic.injEq]
  refine ⟨fun site' => (hstore site').trans ?_, fun site' => ?_⟩
  · rw [hnew]
    split
    · exact List.getLast?_concat.symm
    · rw [List.append_nil]
      exact h.installed site'
  · rw [hnew]
    split
    · next heq =>
      subst heq
      refine List.isChain_append.mpr ⟨h.differ site, List.isChain_singleton u, ?_⟩
      intro last hlast u' hu'
      rw [← h.installed site] at hlast
      cases hu'
      exact htaint ▸ CodeUnit.fitting?_eq_none hfit hlast
    · rw [List.append_nil]
      exact h.differ site'

end Alternates

/-- Compiling and installing keeps the order, if it is kept where a unit is put into the
store. -/
theorem Compiles.alternates {region : Except Fault Region} {entry : UnitEntry} {taint : Nat}
    {unit : Option CodeUnit} {put : CodeUnit → UnitStore → UnitStore}
    (h : b.Compiles p pol region entry taint unit b₁) (hb : b.Alternates)
    (hput : ∀ u, u.entry = entry → u.entryTaint = taint →
      (b.pushed u (put u b.store.freshId.2)).Alternates) :
    (b₁.installed unit put).Alternates := by
  cases h with
  | @unit r t u hr ht hentry htaint => exact hput u hentry htaint
  | empty => exact hb.silent rfl (.refl _)
  | gaveUp => exact hb
  | ended => exact hb.silent rfl (fun _ => rfl)

/-- So does every turn. -/
theorem Change.alternates {handled : Option MergeKey} (h : b.Change p pol handled b')
    (hb : b.Alternates) : b'.Alternates := by
  have hnoted : ∀ site v, (b.noted site v).Alternates := fun site v =>
    hb.silent rfl (.heatKey b.store site v)
  cases h with
  | rest => exact hb
  | passed hpass => exact hb
  | cold hactive hlacks hcold => exact hb.silent rfl (.refl _)
  | @hot loc f k unit b₁ hk hactive hlacks hhot hempty h =>
    refine h.alternates (hb.silent rfl (.refl _)) (fun u hentry _ => ?_)
    have hcounted : (b.counted (.mergePoint k)).Alternates := hb.silent rfl (.refl _)
    exact hcounted.pushed (fun site heq => by rw [hentry] at heq; cases heq) (fun _ => rfl)
  | segment seen gap =>
    have hseg : (b.segmented seen).Alternates :=
      hb.silent rfl (.recordSegment b.heat b.store seen)
    cases gap with
    | false => exact hseg
    | true => exact hseg.silent rfl (fun _ => rfl)
  | noted site v f hactive => exact (hnoted site v).silent rfl (.decide _ _ site v _ f)
  | @promoted site reg f unit b₁ hactive hdecision hempty h =>
    refine h.alternates (hnoted site (f.get reg)) (fun u hentry _ => ?_)
    exact (hnoted site (f.get reg)).pushed (fun site heq => by rw [hentry] at heq; cases heq)
      (.installPromotion (b.noted site (f.get reg)).store.freshId.2 site _)
  | @generic site v f unit b₁ hactive hdecision hempty h =>
    obtain ⟨-, hg, hfit, -⟩ := UnitStore.decide_eq_specializeGeneric hdecision
    exact h.alternates (hnoted site v)
      (fun u hentry htaint => (hnoted site v).installGeneric hg hfit hentry htaint)

end Books

-- ============================================================================
-- Diaries
-- ============================================================================

/-- Where neighbours differ, no value is taken more often than all others together, but
for one time. -/
theorem countP_le_of_isChain {α : Type} {g : α → Nat} {l : List α}
    (h : l.IsChain (fun a b => g a ≠ g b)) (n : Nat) :
    l.countP (fun a => g a = n) ≤ l.countP (fun a => g a ≠ n) + 1 ∧
      ((∀ a ∈ l.head?, g a ≠ n) → l.countP (fun a => g a = n) ≤ l.countP (fun a => g a ≠ n)) := by
  induction l with
  | nil => exact ⟨Nat.zero_le _, fun _ => Nat.le_refl _⟩
  | cons a l ih =>
    obtain ⟨hhead, htail⟩ := List.isChain_cons.mp h
    obtain ⟨hle, hle'⟩ := ih htail
    simp only [List.countP_cons, decide_eq_true_eq]
    by_cases ha : g a = n
    · have hl := hle' (fun b hb heq => hhead b hb (ha.trans heq.symm))
      rw [if_pos ha, if_neg (not_not_intro ha)]
      exact ⟨Nat.succ_le_succ hl, fun hne => absurd ha (hne a rfl)⟩
    · rw [if_neg ha, if_pos ha]
      exact ⟨Nat.le_succ_of_le hle, fun _ => hle⟩

namespace Engine

/-- A value at a site whose unit for all values fits. -/
theorem onPromotion_generic {d : Desk} {site : Location} {reg : Reg} {f : Frame} {u : CodeUnit}
    (hactive : d.isActive = true) (hclean : f.isTainted reg = false)
    (hu : d.store.genericUnit site = some u) (haccepts : u.accepts f = true) :
    ∃ d', onPromotion site reg f d = .done (.execute u f) d' ∧
      d'.engine.committed = d.engine.committed := by
  have hnoted : (d.books.noted site (f.get reg)).store.genericUnit site = some u :=
    (UnitStore.KeepsGeneric.heatKey d.store site (f.get reg) site).trans hu
  have hdecide : (d.books.decide d.engine.policy site (f.get reg) f).1 = .cached u := by
    unfold Books.decide
    rw [UnitStore.decide_of_genericUnit hnoted haccepts]
  generalize hd₁ : ({ d with engine := { d.engine with stats := { d.engine.stats with
    promotionExits := d.engine.stats.promotionExits + 1 } } } : Desk) = d₁
  have hbooks : d₁.books = d.books := hd₁ ▸ rfl
  have hpolicy : d₁.engine.policy = d.engine.policy := hd₁ ▸ rfl
  have hactive : (d₁.isActive && !f.isTainted reg) = true := by
    rw [hclean, ← hd₁]
    exact Bool.and_eq_true_iff.mpr ⟨hactive, rfl⟩
  refine ⟨d₁.decided site (f.get reg) f, ?_, hd₁ ▸ rfl⟩
  have htally : Work.tally (fun s => { s with promotionExits := s.promotionExits + 1 }) d =
      .done () d₁ := hd₁ ▸ rfl
  unfold onPromotion
  rw [Work.bind_apply, htally]
  dsimp only
  rw [Work.desk_bind, if_pos hactive, Work.bind_apply, decidePromotion_eq, hbooks, hpolicy, hdecide]
  rfl

/-- One call after another, with no input, by an engine and its store. -/
def Call.makeAll (fuel : Nat) : List Call → Engine × UnitStore → Option (Engine × UnitStore)
  | [], x => some x
  | c :: cs, x => (c.make fuel ⟨x.1, x.2, {}⟩).state?.bind
      (fun d => makeAll fuel cs (d.engine, d.store))

end Engine

namespace Worker.Diary

variable {p : Program} {pol : Policy} {log : List MergeKey} {w : Worker} {s : UnitStore}

theorem after_calls {e e' : Engine} {s' : UnitStore} {fuel : Nat} {cs : List Engine.Call}
    (h : Diary p pol log (idle e) s) (hcs : Engine.Call.makeAll fuel cs (e, s) = some (e', s')) :
    ∃ log', Diary p pol log' (idle e') s' := by
  induction cs generalizing log e s with
  | nil =>
    cases hcs
    exact ⟨log, h⟩
  | cons c cs ih =>
    obtain ⟨d, hd, hrest⟩ := Option.bind_eq_some_iff.mp hcs
    obtain ⟨log', hlog⟩ := h.after_call hd
    exact ih hlog hrest

theorem alternates (h : Diary p pol log w s) : (w.books s).Alternates := by
  induction h with
  | @new e he =>
    have hnone : ∀ site, ((idle e).books (.ofThreshold pol.megamorphicThreshold)).genericUnits
        site = [] := by
      intro site
      unfold Books.genericUnits
      show e.committed.toList.filter _ = []
      rw [he.isBlank.committed_eq]
      rfl
    refine ⟨fun site => ?_, fun site => ?_⟩
    · rw [hnone]
      rfl
    · rw [hnone]
      exact List.isChain_nil
  | step h hs ih => exact (advances_of_step? hs).change.alternates ih

/-- After any calls, the units that were compiled for all values of a site differ in taint
from each one to the next, and the last of them is the one that is installed. So a taint
has at most one unit more than all others together; as long as there are no others, it
has one. And a value that comes under the taint of the last unit runs this unit: nothing
is compiled for it. -/
theorem generic_units_alternate (h : Diary p pol log w s) (site : Location)
    {units : List CodeUnit}
    (hunits : units = w.engine.committed.toList.filter (fun u => u.entry = .generic site)) :
    units.IsChain (fun u u' => u.entryTaint ≠ u'.entryTaint) ∧
    s.genericUnit site = units.getLast? ∧
    (∀ taint, units.countP (fun u => u.entryTaint = taint) ≤
      units.countP (fun u => u.entryTaint ≠ taint) + 1) ∧
    ∀ u ∈ units.getLast?, pol.enabled = true → s.disabled = false →
      ∀ reg f io, f.isTainted reg = false → f.mask = u.entryTaint →
        ∃ d, Engine.onPromotion site reg f ⟨w.engine, s, io⟩ = .done (.execute u f) d ∧
          d.engine.committed = w.engine.committed := by
  have hunits : units = (w.books s).genericUnits site := hunits
  have hlast : s.genericUnit site = units.getLast? := hunits ▸ h.alternates.installed site
  have hdiffer : units.IsChain (fun u u' => u.entryTaint ≠ u'.entryTaint) :=
    hunits ▸ h.alternates.differ site
  refine ⟨hdiffer, hlast, fun taint => (countP_le_of_isChain hdiffer taint).1, ?_⟩
  intro u hu hon hs reg f io hclean hmask
  exact Engine.onPromotion_generic (h.isActive hon hs io) hclean (hlast.trans hu)
    (CodeUnit.accepts_iff.mpr hmask.symm)

-- ============================================================================
-- A site that sees two taints
-- ============================================================================

/-- Compiles at once, and gives a site room for one value. -/
def hastyPolicy : Policy := { promotionThreshold := 1, megamorphicThreshold := 1 }

/-- A value is reported, and the register that is printed may come from input. -/
def hastyCall (v : Int64) (tainted : Bool) : Engine.Call :=
  .arrival (.promotion ⟨0, 0⟩ 0 ⟨[⟨.int v, false⟩, ⟨.int 5, tainted⟩]⟩)

/-- A new engine, after some reports. -/
def hastyRun (cs : List Engine.Call) : Option (Engine × UnitStore) :=
  Engine.Call.makeAll 9 cs (.ofValid Arrival.echoProgram hastyPolicy rfl, .ofThreshold 1)

theorem hasty_diary {cs : List Engine.Call} {x : Engine × UnitStore} (hx : hastyRun cs = some x) :
    ∃ log, Diary Arrival.echoProgram hastyPolicy log (idle x.1) x.2 :=
  after_calls (Diary.new (Engine.isNew_ofValid rfl)) hx

/-- The second value turns the site generic and gets the first unit for all values; under
another taint it gets another, and this is the one that is installed. -/
theorem generic_units_alternate_hasty :
    ∃ log w s u u', Diary Arrival.echoProgram hastyPolicy log w s ∧
      w.engine.committed.toList.filter (fun u => u.entry = .generic ⟨0, 0⟩) = [u, u'] ∧
      u.entryTaint = 0 ∧ u'.entryTaint = 2 ∧ s.genericUnit ⟨0, 0⟩ = some u' := by
  have hrun : (hastyRun [hastyCall 1 false, hastyCall 2 false, hastyCall 2 true]).any (fun x =>
      (x.1.committed.toList.filter (fun u => u.entry = .generic ⟨0, 0⟩)).map
        CodeUnit.entryTaint = [0, 2]) = true := by decide +kernel
  obtain ⟨x, hx, htaints⟩ := (Option.any_eq_true _ _).mp hrun
  obtain ⟨log, hdiary⟩ := hasty_diary hx
  obtain ⟨u, us, hunits, hu, hus⟩ := List.map_eq_cons_iff.mp (of_decide_eq_true htaints)
  obtain ⟨u', us', rfl, hu', hus'⟩ := List.map_eq_cons_iff.mp hus
  obtain rfl := List.map_eq_nil_iff.mp hus'
  exact ⟨log, _, x.2, u, u', hdiary, hunits, hu, hu',
    (hdiary.generic_units_alternate ⟨0, 0⟩ hunits.symm).2.1⟩

/-- When the first taint comes back, the site is compiled for it again. -/
theorem generic_units_repeat :
    ∃ log w s, Diary Arrival.echoProgram hastyPolicy log w s ∧
      (w.engine.committed.toList.filter (fun u =>
        u.entry = .generic ⟨0, 0⟩ ∧ u.entryTaint = 0)).length = 2 := by
  have hrun : (hastyRun [hastyCall 1 false, hastyCall 2 false, hastyCall 2 true,
      hastyCall 2 false]).any (fun x => (x.1.committed.toList.filter (fun u =>
        u.entry = .generic ⟨0, 0⟩ ∧ u.entryTaint = 0)).length = 2) = true := by decide +kernel
  obtain ⟨x, hx, hlength⟩ := (Option.any_eq_true _ _).mp hrun
  obtain ⟨log, hdiary⟩ := hasty_diary hx
  exact ⟨log, _, x.2, hdiary, of_decide_eq_true hlength⟩

end Worker.Diary

end HotPath
