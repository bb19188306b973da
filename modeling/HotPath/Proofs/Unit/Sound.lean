/-
  HotPath.Proofs.Unit.Sound

  Sound stores: whatever unit a store hands out for a frame keeps up with the
  machine on that frame. `CodeUnit.ServesKey`, `ValueUnit.Serves` and
  `CodeUnit.ServesSite` say so for the three kinds of entries, a unit that was
  just compiled serves the entry it was compiled for, and every operation of a
  store keeps it sound.

  Units may come from engines with different rules for where execution changes
  hands; `allowed` is the set of rules that were used. A key is the greens and
  the taint of a frame, and a unit has fixed nothing else.
-/
import HotPath.Engine.Turn
import HotPath.Proofs.Region.Committed

namespace HotPath

/-- The frame has the registers of the function of an address. -/
def Frame.IsFor (f : Frame) (p : Program) (loc : Location) : Prop :=
  ∃ fn, p.functions[loc.func]? = some fn ∧ f.size = fn.registers

theorem Frame.IsFor.size_eq {f f' : Frame} {p : Program} {loc : Location} (h : f.IsFor p loc)
    (h' : f'.IsFor p loc) : f'.size = f.size := by
  obtain ⟨fn, hfn, hs⟩ := h
  obtain ⟨fn', hfn', hs'⟩ := h'
  rw [hfn] at hfn'
  cases hfn'
  rw [hs, hs']

/-- A unit on a frame keeps up with every machine of a rule, from an address and
the frame that the unit takes its own for. -/
def CodeUnit.Faithful (p : Program) (headersOnly : Bool) (u : CodeUnit) (loc : Location)
    (f f' : Frame) : Prop :=
  ∀ m : Machine, m.program = p → m.capabilities = .all → m.loopHeadersOnly = headersOnly →
    u.trace.Follows m loc f f'

/-- A unit that is good for all frames with a key. -/
def CodeUnit.ServesKey (p : Program) (allowed : Bool → Prop) (k : MergeKey) (u : CodeUnit) : Prop :=
  ∃ h, allowed h ∧ ∀ f, f.IsFor p k.loc → MergeKey.ofFrame k.loc (p.greens k.loc) f = k →
    u.Faithful p h k.loc.after f f

/-- A unit that takes every frame of its taint for one with its value, in the
register of the site; that register is not tainted. -/
def ValueUnit.Serves (p : Program) (allowed : Bool → Prop) (site : Location) (e : ValueUnit) :
    Prop :=
  ∃ h, allowed h ∧ ∃ reg, (∀ r, p.instr? site = some (.promote r) → r = reg) ∧
    ∀ f, f.IsFor p site → f.mask = e.taint → f.isTainted reg = false ∧
      e.unit.Faithful p h site.after f (f.set reg e.value false)

/-- A unit that is good for all frames that it accepts at a site. -/
def CodeUnit.ServesSite (p : Program) (allowed : Bool → Prop) (site : Location) (u : CodeUnit) :
    Prop :=
  ∃ h, allowed h ∧ ∀ f, f.IsFor p site → u.accepts f = true → u.Faithful p h site.after f f

/-- All units of a site are good for what they are handed out for. -/
structure SiteUnits.Sound (p : Program) (allowed : Bool → Prop) (site : Location) (s : SiteUnits) :
    Prop where
  entries : ∀ e ∈ s.entries, e.Serves p allowed site
  generic : ∀ u, s.generic? = some u → u.ServesSite p allowed site

/-- All units of a store are good for what they are handed out for. -/
structure UnitStore.Sound (p : Program) (allowed : Bool → Prop) (s : UnitStore) : Prop where
  keys : ∀ k u, s.lookup k = some u → u.ServesKey p allowed k
  sites : ∀ site, (s.site site).Sound p allowed site

/-- Conditions on the units of a store: one for those under keys, one for those for
a value at a site and one for the generic units of sites. -/
structure UnitStore.Holds (key : MergeKey → CodeUnit → Prop) (value : Location → ValueUnit → Prop)
    (generic : Location → CodeUnit → Prop) (s : UnitStore) : Prop where
  keys : ∀ k u, s.lookup k = some u → key k u
  entries : ∀ site, ∀ e ∈ (s.site site).entries, value site e
  generics : ∀ site u, (s.site site).generic? = some u → generic site u

/-- Soundness is such a condition. -/
theorem UnitStore.sound_iff_holds {p : Program} {allowed : Bool → Prop} {s : UnitStore} :
    s.Sound p allowed ↔ s.Holds (fun k u => u.ServesKey p allowed k)
      (fun site e => e.Serves p allowed site) (fun site u => u.ServesSite p allowed site) :=
  ⟨fun h => ⟨h.keys, fun site => (h.sites site).entries, fun site => (h.sites site).generic⟩,
    fun h => ⟨h.keys, fun site => ⟨h.entries site, h.generics site⟩⟩⟩

/-- Setting an untainted register to its value does nothing. -/
theorem Frame.set_get_self {f : Frame} {r : Reg} (h : f.isTainted r = false) :
    f.set r (f.get r) false = f := by
  refine ext_get (f.size_set ..) (fun i _ => ?_) (fun i _ => ?_)
  · rw [get_set]
    split
    · next hi => rw [hi.1]
    · rfl
  · rw [isTainted_set]
    split
    · next hi => rw [← hi.1, h]
    · rfl

variable {p : Program} {allowed : Bool → Prop}

-- ============================================================================
-- Units that were just compiled
-- ============================================================================

namespace Region

/-- What is fixed at an entry is the value of an untainted register. -/
theorem entryBinding_eq_fixed {origin : Option Origin} {s : Slot} {c : Cell} {k : Known}
    (h : entryBinding origin s c = .fixed k) :
    c.tainted = false ∧ k.value = c.value ∧ origin.isSome = true := by
  unfold entryBinding at h
  cases ht : c.tainted with
  | true =>
    rw [ht] at h
    cases h
  | false =>
    rw [ht] at h
    simp only [Bool.false_eq_true, if_false] at h
    cases origin with
    | none => cases h
    | some o =>
      refine ⟨rfl, ?_, rfl⟩
      simp only [Option.bind_some, Origin.fix?] at h
      split at h
      · next k' hk =>
        cases h
        split at hk
        · cases hk
          rfl
        · cases hk
      · cases h

theorem getElem?_entering_fixed {loc : Location} {f : Frame} {origin : Reg → Option Origin} {i : Reg}
    {k : Known} (h : (entering loc f origin).regs[i]? = some (.fixed k)) :
    f.isTainted i = false ∧ f.get i = k.value ∧ (origin i).isSome = true := by
  obtain ⟨c, hc, hb⟩ := getElem?_entering h
  obtain ⟨ht, hv, ho⟩ := entryBinding_eq_fixed hb.symm
  refine ⟨?_, ?_, ho⟩
  · unfold Frame.isTainted
    rw [hc]
    exact ht
  · unfold Frame.get
    rw [hc]
    exact hv.symm

end Region

/-- A unit for a frame was made from what a region was specialized to, with or
without useless operations. -/
def CodeUnit.IsCompiled (p : Program) (pol : Policy) (r : Region) (f : Frame) (u : CodeUnit) :
    Prop :=
  ∃ (g : Guide) (t : Trace), g.program = p ∧ g.policy = pol ∧
    r.specialize g = .ok (.committed t) ∧ (u.trace = t ∨ u.trace = t.simplify) ∧
    u.entryTaint = f.mask

namespace CodeUnit.IsCompiled

variable {pol : Policy} {f₀ : Frame} {u : CodeUnit} {loc site : Location}

/-- The unit keeps up with the machine on every frame that its region admits. -/
theorem faithful {origin : Reg → Option Origin} {f f' : Frame}
    (h : u.IsCompiled p pol (Region.entering loc f₀ origin) f₀) (hf₀ : f₀.IsFor p loc)
    (ha : (Region.entering loc f₀ origin).Admits f f') :
    u.Faithful p pol.loopHeadersOnly loc f f' := by
  obtain ⟨g, t, rfl, rfl, ht, hu, -⟩ := h
  intro m hp hc hh
  have hsize : ∀ fn, g.program.functions[loc.func]? = some fn → f₀.size = fn.registers := by
    obtain ⟨fn, hfn, hs⟩ := hf₀
    intro fn' hfn'
    rw [hfn] at hfn'
    cases hfn'
    exact hs
  have hfollows := Region.follows_of_committed ⟨hp, hc, hh⟩ hsize ht ha
  rcases hu with hu | hu
  · rw [hu]
    exact hfollows
  · rw [hu]
    exact hfollows.simplify

/-- The unit keeps up with the machine on the frame that it was made for. -/
theorem faithful_self {origin : Reg → Option Origin}
    (h : u.IsCompiled p pol (Region.entering loc f₀ origin) f₀) (hf₀ : f₀.IsFor p loc) :
    u.Faithful p pol.loopHeadersOnly loc f₀ f₀ :=
  h.faithful hf₀ (Region.admits_entering rfl rfl
    (fun _ _ hi => (Region.getElem?_entering_fixed hi).2.1))

/-- A frame with the same key is one with the same greens, as far as they are
fixed. -/
theorem servesKey
    (h : u.IsCompiled p pol (Region.entering loc.after f₀ (fun r => if r ∈ p.greens loc then
      some .greenEntry else none)) f₀)
    (hf₀ : f₀.IsFor p loc) (hh : allowed pol.loopHeadersOnly) :
    u.ServesKey p allowed (MergeKey.ofFrame loc (p.greens loc) f₀) := by
  refine ⟨_, hh, fun f hf hk => h.faithful hf₀ ?_⟩
  have hf : f.IsFor p loc := hf
  have hkey : MergeKey.ofFrame loc (p.greens loc) f = MergeKey.ofFrame loc (p.greens loc) f₀ := hk
  have hmask : f.mask = f₀.mask := congrArg MergeKey.taint hkey
  have hgreens : (p.greens loc).map (MergeKey.green f) = (p.greens loc).map (MergeKey.green f₀) :=
    congrArg MergeKey.greens hkey
  refine Region.admits_entering (hf₀.size_eq hf) hmask (fun i k hi => ?_)
  obtain ⟨hut, hv, ho⟩ := Region.getElem?_entering_fixed hi
  have hmem : i ∈ p.greens loc := by
    split at ho
    · assumption
    · cases ho
  have hgreen : MergeKey.green f i = MergeKey.green f₀ i := List.map_inj_left.mp hgreens i hmem
  unfold MergeKey.green at hgreen
  rw [Frame.isTainted_eq_of_mask (hf₀.size_eq hf) hmask, hut] at hgreen
  exact hgreen.trans hv

/-- A frame of the same taint is taken for one with the promoted value. -/
theorem serves {reg : Reg}
    (h : u.IsCompiled p pol (Region.entering site.after f₀ (fun r => if r = reg then
      some .promoted else none)) f₀)
    (hf₀ : f₀.IsFor p site) (hreg : f₀.isTainted reg = false)
    (hsite : ∀ r, p.instr? site = some (.promote r) → r = reg)
    (hh : allowed pol.loopHeadersOnly) :
    ValueUnit.Serves p allowed site ⟨f₀.get reg, f₀.mask, u⟩ := by
  refine ⟨_, hh, reg, hsite, fun f hf hmask => ?_⟩
  have hmask : f.mask = f₀.mask := hmask
  have hsize := hf₀.size_eq hf
  have htaint := Frame.isTainted_eq_of_mask hsize hmask
  refine ⟨(htaint reg).trans hreg, h.faithful hf₀ ?_⟩
  refine ⟨hsize.trans (Region.length_entering _ _ _).symm, Frame.size_set .., ?_, ?_, ?_⟩
  · intro i b hb
    obtain ⟨c, hc, rfl⟩ := Region.getElem?_entering hb
    have hci : f₀.isTainted i = c.tainted := by
      unfold Frame.isTainted
      rw [hc]
    rw [Region.entryBinding_isTainted, Frame.isTainted_set, htaint, ← hci]
    split
    · next hi => rw [← hi.1, hreg]
    · rfl
  · intro i k hi
    obtain ⟨-, hv, ho⟩ := Region.getElem?_entering_fixed hi
    have hir : i = reg := by
      split at ho
      · assumption
      · cases ho
    have hlt : reg < f.size := by
      have := (List.getElem?_eq_some_iff.mp hi).1
      rw [Region.length_entering, ← hsize, hir] at this
      exact this
    rw [Frame.get_set, if_pos ⟨hir.symm, hlt⟩, ← hv, hir]
  · intro i s tainted hi
    rw [Frame.get_set, if_neg]
    rintro ⟨rfl, -⟩
    -- an untainted register that is promoted is fixed
    obtain ⟨c, hc, hb⟩ := Region.getElem?_entering hi
    have hct : c.tainted = false := by
      unfold Frame.isTainted at hreg
      rw [hc] at hreg
      exact hreg
    rw [if_pos rfl] at hb
    unfold Region.entryBinding at hb
    rw [hct] at hb
    cases hb

/-- A unit that fixed nothing is good for all frames that it accepts. -/
theorem servesSite (h : u.IsCompiled p pol (Region.generic site.after f₀) f₀)
    (hf₀ : f₀.IsFor p site) (hh : allowed pol.loopHeadersOnly) : u.ServesSite p allowed site := by
  refine ⟨_, hh, fun f hf haccepts => h.faithful hf₀ ?_⟩
  have hmask : f.mask = f₀.mask := by
    obtain ⟨-, -, -, -, -, -, htaint⟩ := h
    rw [← htaint]
    exact eq_of_beq haccepts
  refine Region.admits_entering (hf₀.size_eq hf) hmask (fun i k hi => ?_)
  obtain ⟨-, -, ho⟩ := Region.getElem?_entering_fixed hi
  cases ho

end CodeUnit.IsCompiled

-- ============================================================================
-- Units of one site
-- ============================================================================

namespace SiteUnits

variable {s : SiteUnits}

/-- An entry that takes over a unit for its own value and taint is the new entry. -/
theorem eq_of_isFor {e new : ValueUnit} (h : e.isFor new.value new.taint = true) :
    { e with unit := new.unit } = new := by
  unfold ValueUnit.isFor at h
  rw [Bool.and_eq_true, beq_iff_eq, beq_iff_eq] at h
  cases e
  cases new
  simp only at h
  rw [h.1, h.2]

theorem mem_replace {new e : ValueUnit} {es : List ValueUnit} (h : e ∈ replace new es) :
    e ∈ es ∨ e = new := by
  induction es with
  | nil => cases h
  | cons x xs ih =>
    rw [replace] at h
    split at h
    · next hfor =>
      rcases List.mem_cons.mp h with h | h
      · rw [h, eq_of_isFor hfor]
        exact Or.inr rfl
      · exact Or.inl (List.mem_cons_of_mem _ h)
    · rcases List.mem_cons.mp h with h | h
      · exact Or.inl (h ▸ List.mem_cons_self)
      · exact (ih h).imp_left (List.mem_cons_of_mem _)

/-- Updating brings in no entry but the new one. -/
theorem mem_entries_update {new e : ValueUnit} {limit : Nat}
    (h : e ∈ (s.update new limit).1.entries) : e ∈ s.entries ∨ e = new := by
  cases s with
  | uninitialized => exact Or.inr (List.mem_singleton.mp h)
  | monomorphic old =>
    rw [update] at h
    split at h
    · next hfor =>
      rw [eq_of_isFor hfor] at h
      exact Or.inr (List.mem_singleton.mp h)
    · split at h
      · cases h
      · rcases List.mem_cons.mp h with h | h
        · exact Or.inl (List.mem_singleton.mpr h)
        · exact Or.inr (List.mem_singleton.mp h)
  | polymorphic es =>
    rw [update] at h
    split at h
    · exact mem_replace h
    · split at h
      · cases h
      · rcases List.mem_append.mp h with h | h
        · exact Or.inl h
        · exact Or.inr (List.mem_singleton.mp h)
  | megamorphic u => cases h

/-- Installing a unit for a value leaves the one for all values alone. -/
theorem generic?_update (s : SiteUnits) (new : ValueUnit) (limit : Nat) :
    (s.update new limit).1.generic? = s.generic? := by
  cases s with
  | uninitialized | megamorphic u => rfl
  | monomorphic old =>
    unfold update
    dsimp only
    split
    · rfl
    · split <;> rfl
  | polymorphic es =>
    unfold update
    dsimp only
    split
    · rfl
    · split <;> rfl

end SiteUnits

-- ============================================================================
-- Stores
-- ============================================================================

theorem CodeUnit.fitting?_eq_some {f : Frame} {o : Option CodeUnit} {u : CodeUnit}
    (h : fitting? f o = some u) : o = some u ∧ u.accepts f = true := by
  cases o with
  | none => cases h
  | some v =>
    simp only [fitting?] at h
    split at h
    · cases h
      exact ⟨rfl, by assumption⟩
    · cases h

namespace UnitStore

variable {s : UnitStore}

namespace Holds

variable {key : MergeKey → CodeUnit → Prop} {value : Location → ValueUnit → Prop}
  {generic : Location → CodeUnit → Prop}

theorem ofThreshold (n : Nat) : (UnitStore.ofThreshold n).Holds key value generic :=
  ⟨nofun, fun _ => nofun, fun _ => nofun⟩

/-- The conditions are about installed units only. -/
theorem congr {s' : UnitStore} (h : s.Holds key value generic)
    (hm : s'.mergePoints = s.mergePoints) (hs : s'.sites = s.sites) :
    s'.Holds key value generic := by
  have hlookup : ∀ k, s'.lookup k = s.lookup k := by
    intro k
    unfold lookup
    rw [hm]
  have hsite : ∀ site, s'.site site = s.site site := by
    intro site
    unfold UnitStore.site
    rw [hs]
  refine ⟨fun k u hk => h.keys k u (hlookup k ▸ hk), fun site => ?_, fun site => ?_⟩
  · rw [hsite]
    exact h.entries site
  · rw [hsite]
    exact h.generics site

theorem disable (h : s.Holds key value generic) : s.disable.Holds key value generic :=
  h.congr rfl rfl

theorem freshId (h : s.Holds key value generic) : s.freshId.2.Holds key value generic :=
  h.congr rfl rfl

theorem install {k : MergeKey} {u : CodeUnit} (h : s.Holds key value generic) (hu : key k u) :
    (s.install k u).Holds key value generic := by
  refine ⟨fun k' u' hk => ?_, h.entries, h.generics⟩
  unfold UnitStore.install lookup at hk
  rw [Table.get?_insert] at hk
  split at hk
  · next heq =>
    cases hk
    rw [← heq]
    exact hu
  · exact h.keys k' u' hk

/-- The units of one site are replaced. -/
theorem insertSite {site : Location} {units : SiteUnits} (h : s.Holds key value generic)
    (hentries : ∀ e ∈ units.entries, value site e)
    (hgeneric : ∀ u, units.generic? = some u → generic site u) :
    UnitStore.Holds key value generic { s with sites := s.sites.insert site units } := by
  have hsite : ∀ site', UnitStore.site { s with sites := s.sites.insert site units } site' =
      if site = site' then units else s.site site' := by
    intro site'
    unfold UnitStore.site
    rw [Table.get?_insert]
    split
    · rfl
    · rfl
  refine ⟨h.keys, fun site' => ?_, fun site' => ?_⟩
  · rw [hsite]
    split
    · next heq => exact heq ▸ hentries
    · exact h.entries site'
  · rw [hsite]
    split
    · next heq => exact heq ▸ hgeneric
    · exact h.generics site'

theorem installPromotion {site : Location} {new : ValueUnit} (h : s.Holds key value generic)
    (hnew : value site new) : (s.installPromotion site new).2.Holds key value generic := by
  refine h.insertSite (fun e he => ?_)
    (fun u hu => h.generics site u ((SiteUnits.generic?_update _ new _).symm.trans hu))
  rcases SiteUnits.mem_entries_update he with he | rfl
  · exact h.entries site e he
  · exact hnew

theorem makeGeneric (h : s.Holds key value generic) (site : Location) :
    (s.makeGeneric site).2.Holds key value generic := by
  unfold UnitStore.makeGeneric
  split
  · exact h
  · exact h.insertSite nofun nofun

theorem installGeneric {site : Location} {u : CodeUnit} (h : s.Holds key value generic)
    (hu : generic site u) : (s.installGeneric site u).2.Holds key value generic := by
  unfold UnitStore.installGeneric
  split
  · refine h.insertSite nofun (fun v hv => ?_)
    cases hv
    exact hu
  · exact h

theorem heatKey (h : s.Holds key value generic) (site : Location) (v : Value) :
    (s.heatKey site v).2.Holds key value generic := by
  show (s.observePromotion site v).2.Holds key value generic
  unfold UnitStore.observePromotion
  split
  · exact h
  · dsimp only
    split
    · exact h.congr rfl rfl
    · exact (h.makeGeneric site).congr rfl rfl

theorem decide (h : s.Holds key value generic) (threshold : Nat) (site : Location) (v : Value)
    (count : Nat) (f : Frame) :
    (s.decide threshold site v count f).2.Holds key value generic := by
  unfold UnitStore.decide
  split
  · split
    · exact h
    · exact h
  · split
    · exact h
    · split
      · exact h
      · split
        · exact h
        · exact h.makeGeneric site

theorem record (h : s.Holds key value generic) (heat : Heat) (o : Observation) :
    (heat.record s o).2.Holds key value generic := by
  cases o with
  | promotion site v => exact h.heatKey site v
  | split site taken => exact h

/-- Counting what a segment passed changes no unit. -/
theorem recordSegment (h : s.Holds key value generic) (heat : Heat) (seen : Array Observation) :
    (heat.recordSegment s seen).2.Holds key value generic := by
  have hall : ∀ (os : List Observation) (q : Heat × UnitStore), q.2.Holds key value generic →
      (os.foldl (fun (q : Heat × UnitStore) o => q.1.record q.2 o) q).2.Holds key value generic := by
    intro os
    induction os with
    | nil => exact fun q hq => hq
    | cons o os ih => exact fun q hq => ih _ (hq.record q.1 o)
  unfold Heat.recordSegment Heat.recordAll
  rw [← Array.foldl_toList]
  exact hall seen.toList _ h

/-- A unit that is found for a value meets the condition on its entry. -/
theorem lookupPromotion {site : Location} {v : Value} {taint : Nat} {u : CodeUnit}
    (h : s.Holds key value generic) (hu : s.lookupPromotion site v taint = some u) :
    value site ⟨v, taint, u⟩ := by
  obtain ⟨e, he, rfl⟩ := Option.map_eq_some_iff.mp hu
  have hfor := List.find?_some he
  unfold ValueUnit.isFor at hfor
  rw [Bool.and_eq_true, beq_iff_eq, beq_iff_eq] at hfor
  have hentry := h.entries site e (List.mem_of_find?_eq_some he)
  rw [← hfor.1, ← hfor.2]
  exact hentry

end Holds

theorem sound_ofThreshold (p : Program) (allowed : Bool → Prop) (n : Nat) :
    (ofThreshold n).Sound p allowed := sound_iff_holds.mpr (.ofThreshold n)

namespace Sound

/-- What keeps all conditions on installed units keeps a store sound. -/
theorem of_holds {s' : UnitStore} (h : s.Sound p allowed)
    (hs : ∀ {key value generic}, s.Holds key value generic → s'.Holds key value generic) :
    s'.Sound p allowed := sound_iff_holds.mpr (hs (sound_iff_holds.mp h))

theorem disable (h : s.Sound p allowed) : s.disable.Sound p allowed := h.of_holds .disable

theorem freshId (h : s.Sound p allowed) : s.freshId.2.Sound p allowed := h.of_holds .freshId

theorem install {k : MergeKey} {u : CodeUnit} (h : s.Sound p allowed)
    (hu : u.ServesKey p allowed k) : (s.install k u).Sound p allowed :=
  sound_iff_holds.mpr ((sound_iff_holds.mp h).install hu)

theorem installPromotion {site : Location} {new : ValueUnit} (h : s.Sound p allowed)
    (hnew : new.Serves p allowed site) : (s.installPromotion site new).2.Sound p allowed :=
  sound_iff_holds.mpr ((sound_iff_holds.mp h).installPromotion hnew)

theorem installGeneric {site : Location} {u : CodeUnit} (h : s.Sound p allowed)
    (hu : u.ServesSite p allowed site) : (s.installGeneric site u).2.Sound p allowed :=
  sound_iff_holds.mpr ((sound_iff_holds.mp h).installGeneric hu)

theorem heatKey (h : s.Sound p allowed) (site : Location) (value : Value) :
    (s.heatKey site value).2.Sound p allowed := h.of_holds (.heatKey · site value)

theorem decide (h : s.Sound p allowed) (threshold : Nat) (site : Location) (value : Value)
    (count : Nat) (f : Frame) : (s.decide threshold site value count f).2.Sound p allowed :=
  h.of_holds (.decide · threshold site value count f)

/-- Counting what a segment passed keeps a store sound. -/
theorem recordSegment (h : s.Sound p allowed) (heat : Heat) (seen : Array Observation) :
    (heat.recordSegment s seen).2.Sound p allowed := h.of_holds (.recordSegment · heat seen)

end Sound

/-- The unit that a decision is for. -/
theorem decide_eq_cached {threshold count : Nat} {site : Location} {value : Value} {f : Frame}
    {u : CodeUnit} (h : (s.decide threshold site value count f).1 = .cached u) :
    (s.genericUnit site = some u ∧ u.accepts f = true) ∨
      s.lookupPromotion site value f.mask = some u := by
  unfold UnitStore.decide at h
  split at h
  · split at h
    · next v hv =>
      cases h
      exact Or.inl (CodeUnit.fitting?_eq_some hv)
    · split at h <;> cases h
  · split at h
    · next v hv =>
      cases h
      exact Or.inr (CodeUnit.fitting?_eq_some hv).1
    · split at h
      · cases h
      · split at h <;> cases h

theorem Sound.lookupPromotion {site : Location} {value : Value} {taint : Nat} {u : CodeUnit}
    (h : s.Sound p allowed) (hu : s.lookupPromotion site value taint = some u) :
    ValueUnit.Serves p allowed site ⟨value, taint, u⟩ :=
  (sound_iff_holds.mp h).lookupPromotion hu

theorem Sound.genericUnit {site : Location} {u : CodeUnit} (h : s.Sound p allowed)
    (hu : s.genericUnit site = some u) : u.ServesSite p allowed site :=
  (h.sites site).generic u hu

/-- A unit that is run after a decision keeps up with the machine. It may take the
frame for another one, but not where the value is that of the site's register. -/
theorem Sound.decide_eq_cached {threshold count : Nat} {site : Location} {value : Value}
    {f : Frame} {u : CodeUnit} (hs : s.Sound p allowed) (hf : f.IsFor p site)
    (h : (s.decide threshold site value count f).1 = .cached u) :
    ∃ rule f', allowed rule ∧ u.Faithful p rule site.after f f' ∧ f'.size = f.size ∧
      ∀ reg, p.instr? site = some (.promote reg) → f.get reg = value → f' = f := by
  rcases UnitStore.decide_eq_cached h with ⟨hu, haccepts⟩ | hu
  · obtain ⟨rule, hrule, hfaith⟩ := hs.genericUnit hu
    exact ⟨rule, f, hrule, hfaith f hf haccepts, rfl, fun _ _ _ => rfl⟩
  · obtain ⟨rule, hrule, reg, hsite, hfaith⟩ := hs.lookupPromotion hu
    obtain ⟨hreg, hfaith⟩ := hfaith f hf rfl
    refine ⟨rule, _, hrule, hfaith, Frame.size_set .., fun r hr hv => ?_⟩
    cases hsite r hr
    rw [← hv, Frame.set_get_self hreg]

end UnitStore

end HotPath
