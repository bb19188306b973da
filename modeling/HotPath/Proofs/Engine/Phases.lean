/-
  HotPath.Proofs.Engine.Phases

  The phases that calls leave an engine in. Engines of one program may share a
  store, lack capabilities and be called in any order, and calls may fail
  (`Engine.Service`). Even so, a call that succeeds leaves its engine interpreting,
  and one that fails leaves it in a phase in which something runs. There is one way
  to turn into a phase that must not follow: to report a promotion to an engine that
  a fault has left falling back, where it would compile or run a unit
  (`Engine.Service.phase_after_call`).

  What has to hold in between is that every unit of the store can be run on every
  frame for its address (`CodeUnit.RunsAt`); it need not be right for the frame, so
  a promotion may be reported with any register.
-/
import HotPath.Proofs.Engine.Steps
import HotPath.Proofs.Machine.Faults

namespace HotPath

-- ============================================================================
-- Faults of segments and units
-- ============================================================================

namespace Machine

variable {m : Machine}

/-- Where a machine concludes with a fault, the fault is one of its own. -/
theorem Concludes.mayFail {stop : Location → Bool} {s : Spot} {x : Fault} {io : Console}
    (h : m.Concludes m.callee stop s (.failed x io)) : m.MayFail x := by
  obtain ⟨n, hn⟩ := Outcome.exists_eq_eventual (m.walkFrom_chain stop s)
  have hwalk : m.walkFrom n stop s = .failed x io := (hn n (Nat.le_refl n)).trans h.final_eq
  have hfails := m.failsBy_walk n 0 stop s.loc.func ⟨s.loc.pc, s.frame, ⟨s.io, #[]⟩⟩
  unfold walkFrom at hwalk
  cases hw : m.walk n 0 stop s.loc.func ⟨s.loc.pc, s.frame, ⟨s.io, #[]⟩⟩ with
  | failed x' t =>
    rw [hw] at hwalk
    cases hwalk
    exact hfails x t hw
  | done e t =>
    rw [hw] at hwalk
    cases hwalk
  | starved =>
    rw [hw] at hwalk
    cases hwalk

/-- A machine knows nothing of phases. -/
theorem MayFail.ne_illegalTransition {x : Fault} (h : m.MayFail x) :
    x ≠ .breach .illegalTransition := by
  rintro rfl
  cases h

end Machine

-- ============================================================================
-- Units that can be run
-- ============================================================================

/-- The unit can be run on every frame for an address: from there it keeps up with
the machine, on a frame that it takes its own for. -/
def CodeUnit.RunsAt (p : Program) (loc : Location) (u : CodeUnit) : Prop :=
  ∀ f, f.IsFor p loc → ∃ rule f', f'.IsFor p loc ∧ u.Faithful p rule loc f f'

/-- All units of a store can be run where they are handed out for. -/
def UnitStore.Stocked (p : Program) (s : UnitStore) : Prop :=
  s.Holds (fun k u => u.RunsAt p k.loc.after) (fun site e => e.unit.RunsAt p site.after)
    (fun site u => u.RunsAt p site.after)

/-- Every frame of the right size is taken for one that the region admits. -/
theorem Region.exists_admits (loc : Location) {f₀ f : Frame} (origin : Reg → Option Origin)
    (hsize : f.size = f₀.size) :
    ∃ f', f'.size = f.size ∧ (entering loc f₀ origin).Admits f f' := by
  have hslots : ∀ i, i < f.size → ((entering loc f₀ origin).toTrace.entrySlots f).getD i .nil =
      f.get i := fun i hi => Trace.getD_entrySlots _ hi
  generalize (entering loc f₀ origin).toTrace.entrySlots f = slots at hslots
  have hlength := hsize.trans (length_entering loc f₀ origin).symm
  refine ⟨Binding.frame slots (entering loc f₀ origin).regs, ?_, hlength, ?_, ?_, ?_, ?_⟩
  · rw [Binding.size_frame, hlength]
  · rw [Binding.size_frame, hlength]
  · exact fun i b hb => Binding.frame_isTainted hb _
  · exact fun i k hk => Binding.frame_get hk _
  · intro i s t hs
    have hi : i < f.size := hlength ▸ (List.getElem?_eq_some_iff.mp hs).1
    obtain ⟨c, -, hb⟩ := getElem?_entering hs
    rw [Binding.frame_get hs]
    rcases entryBinding_cases (origin i) i c with ⟨k, hk⟩ | hk
    · rw [hk] at hb
      cases hb
    · rw [hk] at hb
      cases hb
      exact hslots i hi

variable {p : Program} {d : Desk} {phase : Phase} {loc site : Location} {f : Frame}

/-- A unit that was just compiled can be run on every frame for its address. -/
theorem CodeUnit.IsCompiled.runsAt {pol : Policy} {f₀ : Frame} {origin : Reg → Option Origin}
    {u : CodeUnit} (h : u.IsCompiled p pol (Region.entering loc f₀ origin) f₀)
    (hf₀ : f₀.IsFor p loc) : u.RunsAt p loc := by
  intro f hf
  obtain ⟨f', hsize, hadmits⟩ := Region.exists_admits loc origin (hf₀.size_eq hf)
  obtain ⟨fn, hfn, hregs⟩ := hf
  exact ⟨_, f', ⟨fn, hfn, hsize.trans hregs⟩, h.faithful hf₀ hadmits⟩

/-- The unit of a decision can be run after its site. -/
theorem UnitStore.Stocked.decide_eq_cached {s : UnitStore} {threshold count : Nat} {v : Value}
    {u : CodeUnit} (hs : s.Stocked p) (h : (s.decide threshold site v count f).1 = .cached u) :
    u.RunsAt p site.after := by
  rcases UnitStore.decide_eq_cached h with ⟨hu, -⟩ | hu
  · exact hs.generics site u hu
  · exact UnitStore.Holds.lookupPromotion hs hu

-- ============================================================================
-- Desks between calls
-- ============================================================================

/-- Phases in which something runs: those that a call may end in. -/
def Phase.isRunning : Phase → Bool
  | .interpreting | .executing | .fallingBack => true
  | .armed | .compiling => false

theorem Phase.canTurnInto_interpreting (phase : Phase) : phase.canTurnInto .interpreting = true := by
  cases phase <;> rfl

theorem Phase.canTurnInto_armed {phase : Phase} (h : phase.isRunning = true) :
    phase.canTurnInto .armed = true := by
  cases phase with
  | interpreting | executing | fallingBack => rfl
  | armed | compiling => cases h

/-- The counts of a desk have grown too large to decide by, or its policy asks for
regions that are too large. -/
def Desk.Overloaded (d : Desk) : Prop :=
  ¬ (d.engine.heat.Tame ∧ d.engine.policy.maxRegionInstrs ≤ 33554432)

/-- A desk for a program, with units that can be run. -/
structure Desk.Serves (p : Program) (d : Desk) : Prop where
  program_eq : d.engine.program = p
  stocked : d.store.Stocked p

/-- The same, in a phase. -/
structure Desk.ServesIn (p : Program) (phase : Phase) (d : Desk) : Prop extends d.Serves p where
  phase_eq : d.engine.phase = phase

/-- Control can go on: an arrival is at a merge point, and all frames have the
registers of their function. -/
inductive Next.Fits (p : Program) : Next → Prop where
  | arrive {loc : Location} {f : Frame} {greens : List Reg}
    (hi : p.instr? loc = some (.mergePoint greens)) (hf : f.IsFor p loc) : Fits p (.arrive loc f)
  | interpret {loc : Location} {f : Frame} (hf : f.IsFor p loc) : Fits p (.interpret loc f)
  | fallBack {loc : Location} {f : Frame} (hf : f.IsFor p loc) : Fits p (.fallBack loc f)
  | execute {u : CodeUnit} {loc : Location} {f : Frame} (hu : u.RunsAt p loc)
    (hf : f.IsFor p loc) : Fits p (.execute u f)
  | finish (e : Exit) : Fits p (.finish e)

/-- The engine may go on with what is next. -/
structure Desk.GoesOn (p : Program) (next : Next) (d : Desk) : Prop extends d.Serves p where
  able : d.engine.phase.canTurnInto next.phase = true
  fits : next.Fits p

/-- A decision fails only if the desk is overloaded. -/
def Desk.Strains (x : Fault) (d : Desk) : Prop := x = .overflow ∧ d.Overloaded

/-- How a call fails in the middle: overloaded, or in a phase in which something
runs. -/
def Desk.Breaks (p : Program) (x : Fault) (d : Desk) : Prop :=
  d.Strains x ∨ (d.Serves p ∧ d.engine.phase.isRunning = true ∧ x ≠ .breach .illegalTransition)

theorem Desk.ServesIn.goesOn (h : d.ServesIn p phase) {next : Next}
    (hable : phase.canTurnInto next.phase = true) (hfits : next.Fits p) : d.GoesOn p next where
  toServes := h.toServes
  able := h.phase_eq ▸ hable
  fits := hfits

/-- The decision at a promotion site, once the value is counted. -/
def Desk.decision (d : Desk) (site : Location) (v : Value) (f : Frame) : Decision :=
  ((d.store.heatKey site v).2.decide d.engine.policy.promotionThreshold site v
    (d.engine.heat.observe (d.store.heatKey site v).1).1 f).1

/-- Whether a promotion is answered by falling back: neither by compiling nor by
running a unit. -/
def Desk.fallsBack (d : Desk) (site : Location) (reg : Reg) (f : Frame) : Bool :=
  if d.isActive && !f.isTainted reg then
    match d.decision site (f.get reg) f with
    | .cached _ => false
    | .fallback => true
    | .specialize => d.engine.emptyEntries.contains (.promotion site (f.get reg))
    | .specializeGeneric => d.engine.emptyEntries.contains (.generic site)
  else true

namespace Desk.ServesIn

variable {F : Fault → Desk → Prop} {S : Prop}

theorem tally (h : d.ServesIn p phase) (change : Stats → Stats) :
    (Work.tally change d).Meets (fun _ => ServesIn p phase) F S :=
  ⟨⟨h.program_eq, h.stocked⟩, h.phase_eq⟩

/-- Counting has no influence on how a promotion is answered. -/
theorem tally_eq (h : d.ServesIn p phase) (change : Stats → Stats) :
    ∃ d', Work.tally change d = .done () d' ∧ d'.ServesIn p phase ∧
      ∀ site reg f, d'.fallsBack site reg f = d.fallsBack site reg f :=
  ⟨_, rfl, ⟨⟨h.program_eq, h.stocked⟩, h.phase_eq⟩, fun _ _ _ => rfl⟩

theorem enter (h : d.ServesIn p phase) {new : Phase} (hnew : phase.canTurnInto new = true)
    (loc : Location) : (Work.enter new loc d).Meets (fun _ => ServesIn p new) F S := by
  unfold Work.enter
  rw [h.phase_eq, if_pos hnew]
  exact ⟨⟨h.program_eq, h.stocked⟩, rfl⟩

theorem observe (h : d.ServesIn p phase) (k : HeatKey) :
    (Work.observe k d).Meets (fun _ => ServesIn p phase) F S :=
  ⟨⟨h.program_eq, h.stocked⟩, h.phase_eq⟩

theorem onStore {α : Type} (h : d.ServesIn p phase) {change : UnitStore → α × UnitStore}
    (hs : (change d.store).2.Stocked p) :
    (Work.onStore change d).Meets (fun _ => ServesIn p phase) F S :=
  ⟨⟨h.program_eq, hs⟩, h.phase_eq⟩

end Desk.ServesIn

namespace Engine

-- ============================================================================
-- Compiling
-- ============================================================================

theorem interpretAfter_eq (hcode : (p.instr? loc.after).isSome = true) (d : Desk) :
    interpretAfter loc f d = .done (.interpret loc.after f) d := by
  unfold interpretAfter
  rw [Program.next?_of_isSome_instr? hcode]
  rfl

theorem fallBackAfter_eq (hcode : (p.instr? loc.after).isSome = true) (d : Desk) :
    fallBackAfter loc f d = .done (.fallBack loc.after f) d := by
  unfold fallBackAfter
  rw [Program.next?_of_isSome_instr? hcode]
  rfl

theorem entering_eq (hcode : (p.instr? loc.after).isSome = true) (origin : Reg → Option Origin)
    (d : Desk) :
    Work.lift (inWidth loc.next? >>= fun next => .ok (Region.entering next f origin)) d =
      .done (Region.entering loc.after f origin) d := by
  rw [Program.next?_of_isSome_instr? hcode]
  rfl

/-- Compiling after an address fails only if the desk is overloaded. -/
theorem compile_servesIn (h : d.ServesIn p phase) (hcode : (p.instr? loc.after).isSome = true)
    (hf : f.IsFor p loc) (origin : Reg → Option Origin) (entry : UnitEntry) :
    (compile (Region.entering loc.after f origin) entry f d).Meets
      (fun c d' => d'.ServesIn p phase ∧ ∀ u, c = .unit u → u.RunsAt p loc.after)
      (fun x d' => d'.Strains x) False := by
  have hf' : f.IsFor p loc.after := hf
  obtain ⟨fn, hfn, hsize⟩ := hf
  obtain ⟨i, hi⟩ := Option.isSome_iff_exists.mp hcode
  obtain ⟨fn', hfn', hpc⟩ := Program.instr?_eq_some.mp hi
  rw [show p.functions[loc.after.func]? = some fn from hfn] at hfn'
  cases hfn'
  have hfn' : d.engine.program.functions[loc.after.func]? = some fn := h.program_eq ▸ hfn
  have hverdict : SucceedsIf (¬ d.Overloaded)
      ((Region.entering loc.after f origin).specialize d.guide) := Region.specialize_succeedsIf
    (fun hc => (Classical.not_not.mp hc).1) (fun hc => (Classical.not_not.mp hc).2) hfn' hsize
    (Program.lt_of_getElem? hpc)
  unfold compile
  rw [Work.desk_bind]
  rcases hverdict with ⟨verdict, hr⟩ | ⟨hr, hover⟩
  · rw [hr]
    cases verdict with
    | committed t =>
      refine ⟨⟨⟨h.program_eq, UnitStore.Holds.freshId h.stocked⟩, h.phase_eq⟩, ?_⟩
      rintro u ⟨⟩
      refine CodeUnit.IsCompiled.runsAt ⟨d.guide, t, h.program_eq, rfl, hr, ?_, rfl⟩ hf'
      cases hsimp : d.engine.simplifies with
      | true => exact Or.inr rfl
      | false => exact Or.inl rfl
    | empty => exact ⟨⟨⟨h.program_eq, h.stocked⟩, h.phase_eq⟩, nofun⟩
    | fallback reason => exact ⟨⟨⟨h.program_eq, h.stocked⟩, h.phase_eq⟩, nofun⟩
  · rw [hr]
    exact ⟨rfl, Classical.not_not.mp hover⟩

-- ============================================================================
-- Merge points
-- ============================================================================

theorem compileMergePoint_goesOn (h : d.ServesIn p .armed)
    (hcode : (p.instr? loc.after).isSome = true) (hf : f.IsFor p loc) {k : MergeKey}
    (hk : k.loc = loc) :
    (compileMergePoint loc f k d).Meets (fun next d' => d'.GoesOn p next)
      (fun x d' => d'.Strains x) False := by
  refine Work.meets_bind (h.enter rfl loc) (fun _ d₁ h₁ => ?_)
  rw [Work.desk_bind, h₁.program_eq, Work.bind_apply]
  rw [show Work.lift (Region.atMergePoint loc (p.greens loc) f) d₁ = _ from entering_eq hcode _ d₁]
  refine Work.meets_bind (compile_servesIn h₁ hcode hf _ _) ?_
  rintro c d₂ ⟨h₂, hc⟩
  cases c with
  | unit u =>
    have hu := hc u rfl
    refine Work.meets_bind (h₂.onStore (UnitStore.Holds.install h₂.stocked (hk ▸ hu))) ?_
    exact fun _ d₃ h₃ => h₃.goesOn rfl (.execute hu hf)
  | interpret =>
    show (interpretAfter loc f d₂).Meets _ _ _
    rw [interpretAfter_eq hcode]
    exact h₂.goesOn rfl (.interpret hf)
  | fallBack =>
    show (fallBackAfter loc f d₂).Meets _ _ _
    rw [fallBackAfter_eq hcode]
    exact h₂.goesOn rfl (.fallBack hf)

/-- What is decided at a merge point may follow. -/
theorem onMergePoint_goesOn (h : d.ServesIn p phase) (hphase : phase.canTurnInto .armed = true)
    (hcode : (p.instr? loc.after).isSome = true) (hf : f.IsFor p loc) :
    (onMergePoint loc f d).Meets (fun next d' => d'.GoesOn p next)
      (fun x d' => d'.Strains x) False := by
  refine Work.meets_bind (h.enter hphase loc) (fun _ d₁ h₁ => ?_)
  refine Work.meets_bind (h₁.tally _) (fun _ d₂ h₂ => ?_)
  have hinterpret : ∀ {d' : Desk}, d'.ServesIn p .armed →
      (interpretAfter loc f d').Meets (fun next d' => d'.GoesOn p next)
        (fun x d' => d'.Strains x) False := by
    intro d' h'
    rw [interpretAfter_eq hcode]
    exact h'.goesOn rfl (.interpret hf)
  rw [Work.desk_bind, h₂.program_eq]
  by_cases hactive : d₂.isActive = true
  · rw [if_pos hactive]
    cases hu : CodeUnit.fitting? f (d₂.store.lookup (.ofFrame loc (p.greens loc) f)) with
    | some u =>
      have hlookup := (CodeUnit.fitting?_eq_some hu).1
      exact h₂.goesOn rfl (.execute (h₂.stocked.keys _ u hlookup) hf)
    | none =>
      refine Work.meets_bind (h₂.observe _) (fun count d₃ h₃ => ?_)
      split
      · exact hinterpret h₃
      · exact compileMergePoint_goesOn h₃ hcode hf rfl
  · rw [if_neg hactive]
    exact hinterpret h₂

-- ============================================================================
-- Promotion sites
-- ============================================================================

theorem decidePromotion_servesIn (h : d.ServesIn p phase) (site : Location) (v : Value)
    (f : Frame) :
    ∃ d', decidePromotion site v f d = .done (d.decision site v f) d' ∧ d'.ServesIn p phase ∧
      d'.engine.emptyEntries = d.engine.emptyEntries ∧
      ∀ u, d.decision site v f = .cached u → u.RunsAt p site.after := by
  have hcounted := UnitStore.Holds.heatKey h.stocked site v
  exact ⟨_, rfl, ⟨⟨h.program_eq, hcounted.decide _ _ _ _ _⟩, h.phase_eq⟩, rfl,
    fun u hu => UnitStore.Stocked.decide_eq_cached hcounted hu⟩

/-- What an engine sets out to do at a promotion site, and whether it falls back. -/
inductive Answers (p : Program) (phase : Phase) (site : Location) (f : Frame) :
    Bool → Outcome Desk Next → Prop where
  | fallBack {d' : Desk} (h : d'.ServesIn p phase) :
    Answers p phase site f true (.done (.fallBack site.after f) d')
  | execute {d' : Desk} {u : CodeUnit} (h : d'.ServesIn p phase) (hu : u.RunsAt p site.after) :
    Answers p phase site f false (.done (.execute u f) d')
  | compile {d' : Desk} {entry : UnitEntry} {origin : Reg → Option Origin}
    {install : CodeUnit → UnitStore → Bool × UnitStore} (h : d'.ServesIn p phase)
    (hempty : d'.engine.emptyEntries.contains entry = false)
    (hinstall : ∀ u s, u.RunsAt p site.after → s.Stocked p → (install u s).2.Stocked p) :
    Answers p phase site f false
      (compilePromotion site f entry (Region.entering site.after f origin) install d')

theorem compilePromotion_answers (h : d.ServesIn p phase)
    (hcode : (p.instr? site.after).isSome = true) (entry : UnitEntry) (origin : Reg → Option Origin)
    {install : CodeUnit → UnitStore → Bool × UnitStore}
    (hinstall : ∀ u s, u.RunsAt p site.after → s.Stocked p → (install u s).2.Stocked p) :
    Answers p phase site f (d.engine.emptyEntries.contains entry)
      (compilePromotion site f entry (Region.entering site.after f origin) install d) := by
  cases hempty : d.engine.emptyEntries.contains entry with
  | false => exact .compile h hempty hinstall
  | true =>
    unfold compilePromotion
    rw [Work.desk_bind, hempty, if_pos rfl, fallBackAfter_eq hcode]
    exact .fallBack h

/-- All that an engine can set out to do at a promotion site. -/
theorem onPromotion_answers (h : d.ServesIn p phase) (hcode : (p.instr? site.after).isSome = true)
    (reg : Reg) (f : Frame) :
    Answers p phase site f (d.fallsBack site reg f) (onPromotion site reg f d) := by
  obtain ⟨d₁, htally, h₁, hfalls⟩ :=
    h.tally_eq (fun s => { s with promotionExits := s.promotionExits + 1 })
  unfold onPromotion
  rw [Work.bind_apply, htally, ← hfalls]
  dsimp only
  rw [Work.desk_bind]
  unfold Desk.fallsBack
  by_cases hactive : (d₁.isActive && !f.isTainted reg) = true
  · obtain ⟨d₂, hdecide, h₂, hempty, hcached⟩ := decidePromotion_servesIn h₁ site (f.get reg) f
    rw [if_pos hactive, if_pos hactive, ← hempty, Work.bind_apply, hdecide]
    cases hd : d₁.decision site (f.get reg) f with
    | cached u => exact .execute h₂ (hcached u hd)
    | fallback =>
      dsimp only
      rw [fallBackAfter_eq hcode]
      exact .fallBack h₂
    | specialize =>
      dsimp only
      rw [Work.bind_apply]
      rw [show Work.lift (Region.atPromotion site reg f) d₂ = _ from entering_eq hcode _ d₂]
      exact compilePromotion_answers h₂ hcode _ _
        (fun u s hu hs => UnitStore.Holds.installPromotion hs hu)
    | specializeGeneric =>
      dsimp only
      rw [Work.bind_apply, Program.next?_of_isSome_instr? hcode]
      exact compilePromotion_answers h₂ hcode _ _
        (fun u s hu hs => UnitStore.Holds.installGeneric hs hu)
  · rw [if_neg hactive, if_neg hactive, fallBackAfter_eq hcode]
    exact .fallBack h₁

theorem compilePromotion_goesOn (h : d.ServesIn p phase)
    (hphase : phase.canTurnInto .compiling = true) (hcode : (p.instr? site.after).isSome = true)
    (hf : f.IsFor p site) {entry : UnitEntry}
    (hempty : d.engine.emptyEntries.contains entry = false) {origin : Reg → Option Origin}
    {install : CodeUnit → UnitStore → Bool × UnitStore}
    (hinstall : ∀ u s, u.RunsAt p site.after → s.Stocked p → (install u s).2.Stocked p) :
    (compilePromotion site f entry (Region.entering site.after f origin) install d).Meets
      (fun next d' => d'.GoesOn p next) (fun x d' => d'.Strains x) False := by
  have hfall : ∀ {d' : Desk}, d'.ServesIn p .compiling →
      (fallBackAfter site f d').Meets (fun next d' => d'.GoesOn p next)
        (fun x d' => d'.Strains x) False := by
    intro d' h'
    rw [fallBackAfter_eq hcode]
    exact h'.goesOn rfl (.fallBack hf)
  unfold compilePromotion
  rw [Work.desk_bind, hempty]
  refine Work.meets_bind (h.enter hphase site) (fun _ d₁ h₁ => ?_)
  refine Work.meets_bind (compile_servesIn h₁ hcode hf _ _) ?_
  rintro c d₂ ⟨h₂, hc⟩
  cases c with
  | unit u =>
    have hu := hc u rfl
    refine Work.meets_bind (h₂.onStore (hinstall u _ hu h₂.stocked)) ?_
    exact fun _ d₃ h₃ => h₃.goesOn rfl (.execute hu hf)
  | interpret => exact hfall h₂
  | fallBack => exact hfall h₂

/-- An engine that falls back cannot start to compile. -/
theorem compilePromotion_barred (h : d.ServesIn p .fallingBack) {entry : UnitEntry}
    (hempty : d.engine.emptyEntries.contains entry = false) (site : Location) (f : Frame)
    (r : Region) (install : CodeUnit → UnitStore → Bool × UnitStore) :
    compilePromotion site f entry r install d = .failed (.breach .illegalTransition) d := by
  have henter : Work.enter .compiling site d = .failed (.breach .illegalTransition) d := by
    unfold Work.enter
    rw [h.phase_eq]
    rfl
  unfold compilePromotion
  rw [Work.desk_bind, hempty]
  show (Work.enter .compiling site >>= _) d = _
  rw [Work.bind_apply, henter]

/-- What is decided at a promotion site may follow, if the engine is free to do it. -/
theorem Answers.goesOn {falls : Bool} {o : Outcome Desk Next} (h : Answers p phase site f falls o)
    (hphase : phase.canTurnInto .fallingBack = true)
    (hfree : falls = false → phase.canTurnInto .compiling = true ∧
      phase.canTurnInto .executing = true)
    (hcode : (p.instr? site.after).isSome = true) (hf : f.IsFor p site) :
    o.Meets (fun next d' => d'.GoesOn p next) (fun x d' => d'.Strains x) False := by
  cases h with
  | fallBack h => exact h.goesOn hphase (.fallBack hf)
  | execute h hu => exact h.goesOn (hfree rfl).2 (.execute hu hf)
  | compile h hempty hinstall =>
    exact compilePromotion_goesOn h (hfree rfl).1 hcode hf hempty hinstall

/-- An engine that falls back can only fall back again. -/
theorem Answers.barred {o : Outcome Desk Next} (h : Answers p .fallingBack site f false o) :
    o.Meets (fun next d' => (∃ u, next = .execute u f) ∧ d'.ServesIn p .fallingBack)
      (fun x d' => x = .breach .illegalTransition ∧ d'.ServesIn p .fallingBack) False := by
  cases h with
  | execute h hu => exact ⟨⟨_, rfl⟩, h⟩
  | compile h hempty hinstall =>
    rw [compilePromotion_barred h hempty]
    exact ⟨rfl, h⟩

-- ============================================================================
-- Turns
-- ============================================================================

variable {single : Bool} {m : Machine} {e : Exit}

/-- What follows a segment, or a unit that ends like one. -/
theorem afterSegment_goesOn (h : d.ServesIn p phase) (hphase : phase.isRunning = true)
    (hm : m.program = p) (he : e.Suits m) (hf : e.frame.IsFor p e.loc)
    (hkind : e.kind = .mergePoint ∨ ∃ v, e.kind = .returned v) :
    d.GoesOn p (afterSegment single e) := by
  have hfinish : d.GoesOn p (.finish e) :=
    h.goesOn phase.canTurnInto_interpreting (.finish e)
  obtain ⟨loc, kind, f⟩ := e
  rcases hkind with rfl | ⟨v, rfl⟩
  · obtain ⟨greens, hi⟩ := Program.exists_mergePoint_of_isDispatchPoint he
    rw [hm] at hi
    cases single with
    | true => exact hfinish
    | false => exact h.goesOn (Phase.canTurnInto_armed hphase) (.arrive hi hf)
  · exact hfinish

/-- A turn that interprets. -/
theorem interpret_goesOn (h : d.ServesIn p phase) (hphase : phase.isRunning = true)
    (hf : f.IsFor p loc) (fuel : Nat) :
    (interpret fuel single loc f d).Meets (fun next d' => d'.GoesOn p next)
      (fun x d' => d'.Breaks p x) True := by
  have hm : d.engine.interpreter.program = p := h.program_eq
  have hfails := d.engine.interpreter.failsBy_resume fuel loc f d.io
  have hmeets := Machine.resume_meets (m := d.engine.interpreter) (s := ⟨loc, f, d.io⟩)
    (hm.symm ▸ hf) fuel
  unfold interpret Machine.segment
  rw [show d.profile.io = d.io from rfl]
  cases hr : d.engine.interpreter.resume fuel loc f d.io with
  | starved => trivial
  | failed x t =>
    have hx := (hfails x t hr).ne_illegalTransition
    have hrecorded := UnitStore.Holds.recordSegment h.stocked d.engine.heat t.seen
    have hrunning : d.engine.phase.isRunning = true := h.phase_eq ▸ hphase
    cases x with
    | gap cap loc => exact Or.inr ⟨⟨h.program_eq, hrecorded.disable⟩, hrunning, hx⟩
    | _ => exact Or.inr ⟨⟨h.program_eq, hrecorded⟩, hrunning, hx⟩
  | done e t =>
    rw [hr] at hmeets
    obtain ⟨hreach, hsuits, hkind⟩ := hmeets
    have hrecorded := UnitStore.Holds.recordSegment h.stocked d.engine.heat t.seen
    have h' : (d.withProfile (d.profile.absorb t)).ServesIn p phase :=
      ⟨⟨h.program_eq, hrecorded⟩, h.phase_eq⟩
    exact afterSegment_goesOn h' hphase hm hsuits (hf.of_reaches hreach) hkind

/-- A turn that goes on after a unit left. -/
theorem afterUnit_goesOn (h : d.ServesIn p .executing) (hm : m.program = p) (he : e.Suits m)
    (hf : e.frame.IsFor p e.loc) :
    (afterUnit single e d).Meets (fun next d' => d'.GoesOn p next)
      (fun x d' => d'.Breaks p x) True := by
  obtain ⟨loc, kind, f⟩ := e
  cases kind with
  | mergePoint => exact afterSegment_goesOn h rfl hm he hf (Or.inl rfl)
  | returned v => exact afterSegment_goesOn h rfl hm he hf (Or.inr ⟨v, rfl⟩)
  | fallback => exact h.goesOn rfl (.fallBack hf)
  | promotion reg =>
    have hi : p.instr? loc = some (.promote reg) := hm ▸ he
    have hcode := Program.isSome_instr?_after hi List.mem_cons_self
    exact ((onPromotion_answers h hcode reg f).goesOn rfl (fun _ => ⟨rfl, rfl⟩) hcode hf).imp
      (fun _ _ => id) (fun _ _ => Or.inl) False.elim

/-- A turn that runs a unit. -/
theorem execute_goesOn (h : d.ServesIn p .executing) {u : CodeUnit} (hu : u.RunsAt p loc)
    (hf : f.IsFor p loc) (fuel : Nat) :
    ((do
      let e ← runUnit fuel u f
      afterUnit single e : Work Next) d).Meets (fun next d' => d'.GoesOn p next)
      (fun x d' => d'.Breaks p x) True := by
  obtain ⟨rule, f', hf', hfaith⟩ := hu f hf
  have hm : d.engine.unitMachine.program = p := h.program_eq
  have hmeets := CodeUnit.Faithful.run_meets (m := d.engine.unitMachine) (hm.symm ▸ hfaith) rfl
    fuel d.io
  rw [Work.bind_apply]
  unfold runUnit
  cases hr : u.run d.engine.unitMachine fuel f d.io with
  | starved => trivial
  | failed x io =>
    rw [hr] at hmeets
    have hrunning : d.engine.phase.isRunning = true := h.phase_eq ▸ rfl
    exact Or.inr ⟨⟨h.program_eq, h.stocked⟩, hrunning,
      (Machine.Concludes.mayFail hmeets).ne_illegalTransition⟩
  | done e io =>
    rw [hr] at hmeets
    have h' : Desk.ServesIn p .executing { d with io } := ⟨⟨h.program_eq, h.stocked⟩, h.phase_eq⟩
    exact afterUnit_goesOn (m := d.engine.unitMachine.withHeaders rule) h' hm hmeets.2
      (hf'.of_reaches hmeets.1)

/-- A turn goes on in a phase that may follow, or fails in one in which something
runs. -/
theorem turn_goesOn {next : Next} (h : d.GoesOn p next) (fuel : Nat) :
    (turn fuel single next d).Meets (fun next' d' => d'.GoesOn p next')
      (fun x d' => d'.Breaks p x) True := by
  have hd : d.ServesIn p d.engine.phase := ⟨h.toServes, rfl⟩
  cases h.fits with
  | finish e => exact h
  | arrive hi hf =>
    have hcode := Program.isSome_instr?_after hi List.mem_cons_self
    exact (onMergePoint_goesOn hd h.able hcode hf).imp (fun _ _ => id) (fun _ _ => Or.inl)
      False.elim
  | interpret hf =>
    refine Work.meets_bind (hd.enter h.able _) (fun _ d₁ h₁ => ?_)
    exact Work.meets_bind (h₁.tally _) (fun _ d₂ h₂ => interpret_goesOn h₂ rfl hf fuel)
  | fallBack hf =>
    refine Work.meets_bind (hd.enter h.able _) (fun _ d₁ h₁ => ?_)
    exact Work.meets_bind (h₁.tally _) (fun _ d₂ h₂ => interpret_goesOn h₂ rfl hf fuel)
  | execute hu hf =>
    refine Work.meets_bind (hd.enter h.able _) (fun _ d₁ h₁ => ?_)
    exact Work.meets_bind (h₁.tally _) (fun _ d₂ h₂ => execute_goesOn h₂ hu hf fuel)

/-- So do turns after turns, and control that finishes leaves the engine
interpreting. -/
theorem drive_servesIn {next : Next} (h : d.GoesOn p next) (fuel n : Nat) :
    (drive fuel single n next d).Meets (fun _ d' => d'.ServesIn p .interpreting)
      (fun x d' => d'.Breaks p x) True := by
  induction n generalizing next d with
  | zero => trivial
  | succ n ih =>
    rcases Nat.eq_zero_or_pos next.rank with hr | hr
    · have hd : d.ServesIn p d.engine.phase := ⟨h.toServes, rfl⟩
      cases next with
      | finish e => exact Work.meets_bind (hd.enter h.able e.loc) (fun _ _ h' => h')
      | _ => cases hr
    · rw [drive_succ hr]
      exact Work.meets_bind (turn_goesOn h fuel) (fun next' d' h' => ih h')

-- ============================================================================
-- Calls
-- ============================================================================

/-- The call is made where it belongs: frames have the registers of their function,
and arrivals are at a merge point or at a promotion site, whatever register is
named. -/
def Call.Fits (p : Program) : Call → Prop
  | .program => True
  | .run loc f => f.IsFor p loc
  | .arrival (.mergePoint loc f) =>
    f.IsFor p loc ∧ ∃ greens, p.instr? loc = some (.mergePoint greens)
  | .arrival (.promotion site _ f) => f.IsFor p site ∧ ∃ reg, p.instr? site = some (.promote reg)

/-- The call reports a promotion to an engine that falls back, and that would
compile or run a unit. -/
def Call.IsBarred (d : Desk) : Call → Prop
  | .program => False
  | .run _ _ => False
  | .arrival (.mergePoint _ _) => False
  | .arrival (.promotion site reg f) =>
    d.engine.phase = .fallingBack ∧ d.fallsBack site reg f = false

/-- How a call may end that is not barred. -/
def Ends (p : Program) {α : Type} (o : Outcome Desk α) : Prop :=
  o.Meets (fun _ d' => d'.ServesIn p .interpreting) (fun x d' => d'.Breaks p x) True

theorem Ends.forget {α : Type} {w : Work α} (h : Ends p (w d)) :
    Ends p ((do let _ ← w; return () : Work Unit) d) :=
  Work.meets_bind h (fun _ _ => id)

theorem runProgram_ends (h : d.ServesIn p phase) (fuel : Nat) : Ends p (runProgram fuel d) := by
  have hgoes : d.GoesOn p (.interpret ⟨p.entry, 0⟩ p.entryFrame) :=
    h.goesOn phase.canTurnInto_interpreting (.interpret (p.isFor_start d.io))
  have hdrive : (drive fuel false fuel (.interpret ⟨p.entry, 0⟩ p.entryFrame) d).Meets
      (fun _ d' => d'.ServesIn p .interpreting) (fun x d' => d'.Breaks p x) True :=
    drive_servesIn hgoes fuel fuel
  rw [runProgram_eq h.program_eq]
  cases hr : drive fuel false fuel (.interpret ⟨p.entry, 0⟩ p.entryFrame) d with
  | starved => trivial
  | failed x d' =>
    rw [hr] at hdrive
    exact hdrive
  | done e d' =>
    rw [hr] at hdrive
    have hd' : d'.ServesIn p .interpreting := hdrive
    simp only [Outcome.returned, Exit.result]
    cases e.value? with
    | some v => exact hd'
    | none => exact Or.inr ⟨hd'.toServes, hd'.phase_eq ▸ rfl, fun h => by cases h⟩

/-- A call that is not barred ends in order. -/
theorem make_ends (h : d.ServesIn p phase) (hphase : phase.isRunning = true) {c : Call}
    (hc : c.Fits p) (hfree : ¬ c.IsBarred d) (fuel : Nat) : Ends p (c.make fuel d) := by
  cases c with
  | program => exact (runProgram_ends h fuel).forget
  | run loc f =>
    have hgoes : d.GoesOn p (.interpret loc f) :=
      h.goesOn phase.canTurnInto_interpreting (.interpret hc)
    exact Ends.forget (drive_servesIn hgoes fuel fuel)
  | arrival a =>
    cases a with
    | mergePoint loc f =>
      obtain ⟨hf, greens, hi⟩ := hc
      have hgoes : d.GoesOn p (.arrive loc f) :=
        h.goesOn (Phase.canTurnInto_armed hphase) (.arrive hi hf)
      exact Ends.forget (drive_servesIn hgoes fuel fuel)
    | promotion site reg f =>
      obtain ⟨hf, r, hi⟩ := hc
      have hcode := Program.isSome_instr?_after hi List.mem_cons_self
      have hable : d.fallsBack site reg f = false →
          phase.canTurnInto .compiling = true ∧ phase.canTurnInto .executing = true := by
        intro hfalls
        cases phase with
        | interpreting | executing => exact ⟨rfl, rfl⟩
        | fallingBack => exact absurd ⟨h.phase_eq, hfalls⟩ hfree
        | armed | compiling => cases hphase
      have hback : phase.canTurnInto .fallingBack = true := by
        cases phase with
        | interpreting | executing | fallingBack => rfl
        | armed | compiling => cases hphase
      have hanswer := (onPromotion_answers h hcode reg f).goesOn hback hable hcode hf
      refine Ends.forget ?_
      show Ends p (promote fuel site reg f d)
      rw [promote_eq]
      exact Work.meets_bind (hanswer.imp (fun _ _ => id) (fun _ _ => Or.inl) False.elim)
        (fun next d' h' => drive_servesIn h' fuel fuel)

/-- A call that is barred turns into a phase that must not follow, and stays in its
own. -/
theorem make_barred (h : d.ServesIn p phase) {c : Call} (hc : c.Fits p) (hbarred : c.IsBarred d)
    (fuel : Nat) :
    (c.make fuel d).Meets (fun _ _ => False)
      (fun x d' => x = .breach .illegalTransition ∧ d'.ServesIn p .fallingBack) True := by
  cases c with
  | program => exact hbarred.elim
  | run loc f => exact hbarred.elim
  | arrival a =>
    cases a with
    | mergePoint loc f => exact hbarred.elim
    | promotion site reg f =>
      obtain ⟨hf, r, hi⟩ := hc
      obtain ⟨hphase, hfalls⟩ := hbarred
      have hcode := Program.isSome_instr?_after hi List.mem_cons_self
      have hd : d.ServesIn p .fallingBack := ⟨h.toServes, hphase⟩
      have hanswer := onPromotion_answers hd hcode reg f
      rw [hfalls] at hanswer
      have hpromote : (promote fuel site reg f d).Meets (fun _ _ => False)
          (fun x d' => x = .breach .illegalTransition ∧ d'.ServesIn p .fallingBack) True := by
        rw [promote_eq]
        refine Work.meets_bind (hanswer.barred.imp (fun _ _ => id) (fun _ _ => id) False.elim) ?_
        rintro next d' ⟨⟨u, rfl⟩, hd'⟩
        cases fuel with
        | zero => trivial
        | succ n =>
          -- the unit is never entered
          have henter : Work.enter .executing u.entry.loc d' =
              .failed (.breach .illegalTransition) d' := by
            unfold Work.enter
            rw [hd'.phase_eq]
            rfl
          show (((Work.enter .executing u.entry.loc >>= _) >>= _) d').Meets _ _ _
          rw [Work.bind_apply, Work.bind_apply, henter]
          exact ⟨rfl, hd'⟩
      exact Work.meets_bind hpromote (fun _ _ hfalse => hfalse.elim)

/-- How every call ends. -/
theorem make_meets (h : d.ServesIn p phase) (hphase : phase.isRunning = true) {c : Call}
    (hc : c.Fits p) (fuel : Nat) :
    (c.make fuel d).Meets (fun _ d' => d'.ServesIn p .interpreting ∧ ¬ c.IsBarred d)
      (fun x d' => (d'.Strains x ∨ (d'.Serves p ∧ d'.engine.phase.isRunning = true)) ∧
        (x = .breach .illegalTransition ↔ c.IsBarred d)) True := by
  by_cases hbarred : c.IsBarred d
  · refine (make_barred h hc hbarred fuel).imp (fun _ _ => False.elim) ?_ id
    rintro x d' ⟨rfl, hd'⟩
    have hrunning : d'.engine.phase.isRunning = true := hd'.phase_eq ▸ rfl
    exact ⟨Or.inr ⟨hd'.toServes, hrunning⟩, fun _ => hbarred, fun _ => rfl⟩
  · refine (make_ends h hphase hc hbarred fuel).imp (fun _ _ hd' => ⟨hd', hbarred⟩) ?_ id
    rintro x d' (hstrains | ⟨hserves, hrunning, hx⟩)
    · obtain ⟨rfl, -⟩ := id hstrains
      exact ⟨Or.inl hstrains, nofun, fun hb => absurd hb hbarred⟩
    · exact ⟨Or.inr ⟨hserves, hrunning⟩, fun hx' => absurd hx' hx, fun hb => absurd hb hbarred⟩

-- ============================================================================
-- Engines in service
-- ============================================================================

/-- An engine and a store after any calls. Engines of the same program, each with a
policy and with capabilities of its own, may have used the store. Calls may have
failed, but not by an overflow. -/
inductive Service (p : Program) : Engine → UnitStore → Prop where
  | new {pol : Policy} {e : Engine} (he : e.IsNew p pol) (threshold : Nat) :
    Service p e (.ofThreshold threshold)
  | equip {e : Engine} {s : UnitStore} (h : Service p e s) (capabilities : Capabilities)
    (simplifies : Bool) : Service p { e with capabilities, simplifies } s
  | share {e e' : Engine} {s s' : UnitStore} (h : Service p e s) (h' : Service p e' s') :
    Service p e s'
  | call {e : Engine} {s : UnitStore} {io : Console} {c : Call} {fuel : Nat} {d : Desk}
    (h : Service p e s) (hc : c.Fits p) (hd : (c.make fuel ⟨e, s, io⟩).state? = some d)
    (hx : (c.make fuel ⟨e, s, io⟩).fault? ≠ some .overflow) : Service p d.engine d.store

/-- Between calls, an engine serves its program, in a phase in which something runs. -/
theorem Service.serves {e : Engine} {s : UnitStore} (h : Service p e s) (io : Console) :
    Desk.ServesIn p e.phase ⟨e, s, io⟩ ∧ e.phase.isRunning = true := by
  induction h generalizing io with
  | new he threshold =>
    obtain ⟨e₁, simplifies, he₁, rfl⟩ := he
    obtain ⟨hprogram, -, -, hphase⟩ := ofPolicy_eq_ok he₁
    exact ⟨⟨⟨hprogram, .ofThreshold threshold⟩, rfl⟩, hphase ▸ rfl⟩
  | equip _ capabilities simplifies ih =>
    obtain ⟨hd, hphase⟩ := ih io
    exact ⟨⟨⟨hd.program_eq, hd.stocked⟩, rfl⟩, hphase⟩
  | share _ _ ih ih' =>
    obtain ⟨hd, hphase⟩ := ih io
    exact ⟨⟨⟨hd.program_eq, (ih' io).1.stocked⟩, rfl⟩, hphase⟩
  | @call e s io' c fuel d _ hc hstate hx ih =>
    obtain ⟨hd, hphase⟩ := ih io'
    have hmeets := make_meets hd hphase hc fuel
    cases hr : c.make fuel ⟨e, s, io'⟩ with
    | done a d' =>
      rw [hr] at hmeets hstate
      cases hstate
      have hd' : d.ServesIn p .interpreting := hmeets.1
      exact ⟨⟨⟨hd'.program_eq, hd'.stocked⟩, rfl⟩, by rw [hd'.phase_eq]; rfl⟩
    | failed x d' =>
      rw [hr] at hmeets hstate hx
      cases hstate
      rcases hmeets.1 with ⟨rfl, -⟩ | ⟨hserves, hrunning⟩
      · exact absurd rfl hx
      · exact ⟨⟨⟨hserves.program_eq, hserves.stocked⟩, rfl⟩, hrunning⟩
    | starved =>
      rw [hr] at hstate
      cases hstate

/-- Over any calls, a call that succeeds leaves its engine interpreting, and one that
fails leaves it interpreting, executing or falling back, unless counts or regions
outgrow their width. A phase that must not follow is entered exactly where a
promotion is reported to an engine that falls back, and the answer is to compile or
to run a unit. -/
theorem Service.phase_after_call {e : Engine} {s : UnitStore} (h : Service p e s) {c : Call}
    (hc : c.Fits p) (fuel : Nat) (io : Console) :
    (c.make fuel ⟨e, s, io⟩).Meets
      (fun _ d => d.engine.phase = .interpreting ∧ ¬ c.IsBarred ⟨e, s, io⟩)
      (fun x d => (d.engine.phase.isRunning = true ∨ (x = .overflow ∧ d.Overloaded)) ∧
        (x = .breach .illegalTransition ↔ c.IsBarred ⟨e, s, io⟩))
      True := by
  obtain ⟨hd, hphase⟩ := h.serves io
  refine (make_meets hd hphase hc fuel).imp ?_ ?_ id
  · exact fun _ d hdone => ⟨hdone.1.phase_eq, hdone.2⟩
  · rintro x d ⟨hstrains | ⟨-, hrunning⟩, hbarred⟩
    · exact ⟨Or.inr hstrains, hbarred⟩
    · exact ⟨Or.inl hrunning, hbarred⟩

-- ============================================================================
-- A promotion at the wrong time
-- ============================================================================

/-- Promotes its first register, and takes a field of it. -/
def prying : Function :=
  { name := "prying", registers := 2, code := #[.promote 0, .getField 1 0 0, .ret 1] }

/-- The function as a program. -/
def pryingProgram : Program :=
  { functions := #[prying], entry := 0, facts := .ofFunctions #[prying], faultless := by decide,
    facts_eq := rfl }

/-- A new engine for it that compiles at the second promotion. -/
def pryingEngine : Engine := .ofValid pryingProgram { promotionThreshold := 2 } rfl

/-- The report of an integer, which has no fields. -/
def pryingCall : Call := .arrival (.promotion ⟨0, 0⟩ 0 ⟨[⟨.int 7, false⟩, ⟨.int 0, false⟩]⟩)

/-- The desk after such a report. -/
def pryingDesk : Option Desk := (pryingCall.make 9 (.ofEngine pryingEngine [])).state?

/-- A report that fails leaves the engine falling back, and the next one would have
it compile. -/
theorem Service.phase_after_call_prying :
    ∃ e s, Service pryingProgram e s ∧ pryingCall.Fits pryingProgram ∧
      pryingCall.IsBarred ⟨e, s, {}⟩ ∧
      ∃ d, pryingCall.make 9 ⟨e, s, {}⟩ = .failed (.breach .illegalTransition) d ∧
        d.engine.phase.isRunning = true := by
  have hfits : pryingCall.Fits pryingProgram := ⟨⟨prying, rfl, rfl⟩, 0, rfl⟩
  have hfault : (pryingCall.make 9 (.ofEngine pryingEngine [])).fault? ≠ some .overflow := by
    decide +kernel
  have hrun : pryingDesk.any (fun d => d.engine.phase = .fallingBack ∧
      d.fallsBack ⟨0, 0⟩ 0 ⟨[⟨.int 7, false⟩, ⟨.int 0, false⟩]⟩ = false ∧
      (pryingCall.make 9 ⟨d.engine, d.store, {}⟩).state?.isSome = true) = true := by
    decide +kernel
  obtain ⟨d, hd, hrun⟩ := (Option.any_eq_true _ _).mp hrun
  obtain ⟨hphase, hfalls, hends⟩ := of_decide_eq_true hrun
  have hservice : Service pryingProgram d.engine d.store :=
    .call (.new (isNew_ofValid rfl) _) hfits hd hfault
  have hbarred : pryingCall.IsBarred ⟨d.engine, d.store, {}⟩ := ⟨hphase, hfalls⟩
  refine ⟨d.engine, d.store, hservice, hfits, hbarred, ?_⟩
  have hmeets := hservice.phase_after_call hfits 9 {}
  cases hr : pryingCall.make 9 ⟨d.engine, d.store, {}⟩ with
  | done a d' =>
    rw [hr] at hmeets
    exact absurd hbarred hmeets.2
  | failed x d' =>
    rw [hr] at hmeets
    obtain rfl : x = .breach .illegalTransition := hmeets.2.mpr hbarred
    rcases hmeets.1 with hrunning | ⟨hover, -⟩
    · exact ⟨d', rfl, hrunning⟩
    · cases hover
  | starved =>
    rw [hr] at hends
    cases hends

end Engine

end HotPath
