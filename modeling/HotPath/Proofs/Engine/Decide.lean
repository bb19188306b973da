/-
  HotPath.Proofs.Engine.Decide

  What the decisions of an engine come to. At a merge point and at a promotion
  site an engine counts, looks into its store, and may compile and install; in
  the end it goes on by interpreting, by falling back or with a unit.

  Deciding leaves the console alone and the store sound (`Desk.Deciding`). A
  decision goes on as the interpreter would after the address it was made at
  (`Desk.Decided`); `Engine.onMergePoint_meets` and `Engine.onPromotion_meets`
  say so for both places. They fail only where the heat has grown too large.
-/
import HotPath.Engine.Drive
import HotPath.Proofs.Region.Total
import HotPath.Proofs.Unit.Sound

namespace HotPath

-- ============================================================================
-- Conditions on work
-- ============================================================================

namespace Work

variable {α β : Type}

/-- One piece of work after another. -/
theorem meets_bind {w : Work α} {next : α → Work β} {d : Desk} {mid : α → Desk → Prop}
    {done : β → Desk → Prop} {failed : Fault → Desk → Prop} {starved : Prop}
    (hw : (w d).Meets mid failed starved)
    (hn : ∀ a d', mid a d' → (next a d').Meets done failed starved) :
    ((w >>= next) d).Meets done failed starved := by
  rw [bind_apply]
  cases hx : w d with
  | done a d' =>
    rw [hx] at hw
    exact hn a d' hw
  | failed e d' =>
    rw [hx] at hw
    exact hw
  | starved =>
    rw [hx] at hw
    exact hw

theorem desk_bind (next : Desk → Work β) (d : Desk) : (desk >>= next) d = next d d := rfl

theorem lift_bind_ok (x : Except Fault α) (g : α → β) (d : Desk) :
    lift (x >>= fun a => .ok (g a)) d = (lift x >>= fun a => lift (.ok (g a))) d := by
  cases x with
  | ok a => rfl
  | error e => rfl

end Work

-- ============================================================================
-- Deciding
-- ============================================================================

/-- A desk of an engine for a program, with a policy, that can interpret
everything, and units that are good for what they are handed out for. -/
structure Desk.Sane (p : Program) (pol : Policy) (allowed : Bool → Prop) (d : Desk) : Prop where
  program_eq : d.engine.program = p
  policy_eq : d.engine.policy = pol
  capabilities_eq : d.engine.capabilities = .all
  sound : d.store.Sound p allowed

/-- The engine has been deciding since a desk, and is in a phase. -/
structure Desk.Deciding (p : Program) (pol : Policy) (allowed : Bool → Prop) (d₀ : Desk)
    (phase : Phase) (d : Desk) : Prop extends d.Sane p pol allowed where
  io_eq : d.io = d₀.io
  phase_eq : d.engine.phase = phase

/-- The heat of a desk is too large to decide by. -/
def Desk.Overheated (pol : Policy) (d : Desk) : Prop := pol.enabled = true ∧ ¬ d.engine.heat.Tame

/-- How a decision at an address may fail: there is no code to go on with, or the
heat has grown too large. -/
structure Desk.Balks (p : Program) (pol : Policy) (allowed : Bool → Prop) (loc : Location)
    (_ : Fault) (d : Desk) : Prop where
  sound : d.store.Sound p allowed
  overheated : (p.instr? loc.after).isSome = true → d.Overheated pol

/-- The phase in which control goes on. -/
def Next.phase : Next → Phase
  | .arrive .. => .armed
  | .interpret .. => .interpreting
  | .fallBack .. => .fallingBack
  | .execute .. => .executing
  | .finish _ => .interpreting

/-- Control goes on as the interpreter would from an address with a frame. -/
inductive Next.Resumes (p : Program) (allowed : Bool → Prop) : Next → Location → Frame → Prop where
  | interpret (loc : Location) (f : Frame) : Resumes p allowed (.interpret loc f) loc f
  | fallBack (loc : Location) (f : Frame) : Resumes p allowed (.fallBack loc f) loc f
  | execute {u : CodeUnit} {loc : Location} {f f' : Frame} {h : Bool} (hh : allowed h)
    (hu : u.Faithful p h loc f f') : Resumes p allowed (.execute u f) loc f'

/-- The engine has decided, and goes on as the interpreter would. -/
structure Desk.Decided (p : Program) (pol : Policy) (allowed : Bool → Prop) (d₀ : Desk)
    (loc : Location) (f : Frame) (next : Next) (d : Desk) : Prop
    extends d₀.Deciding p pol allowed d.engine.phase d where
  ready : d.engine.phase.canTurnInto next.phase = true
  resumes : next.Resumes p allowed loc f

variable {p : Program} {pol : Policy} {allowed : Bool → Prop} {d₀ d : Desk} {phase : Phase}
  {loc : Location} {f : Frame}

theorem Desk.Deciding.decided (h : d₀.Deciding p pol allowed phase d) {next : Next}
    (hready : phase.canTurnInto next.phase = true) (hr : next.Resumes p allowed loc f) :
    d₀.Decided p pol allowed loc f next d where
  toSane := h.toSane
  io_eq := h.io_eq
  phase_eq := rfl
  ready := h.phase_eq ▸ hready
  resumes := hr

namespace Desk.Deciding

variable {F : Fault → Desk → Prop} {S : Prop}

theorem tally (h : d₀.Deciding p pol allowed phase d) (change : Stats → Stats) :
    (Work.tally change d).Meets (fun _ => d₀.Deciding p pol allowed phase) F S :=
  ⟨⟨h.program_eq, h.policy_eq, h.capabilities_eq, h.sound⟩, h.io_eq, h.phase_eq⟩

theorem enter (h : d₀.Deciding p pol allowed phase d) {new : Phase}
    (hready : phase.canTurnInto new = true) (loc : Location) :
    (Work.enter new loc d).Meets (fun _ => d₀.Deciding p pol allowed new) F S := by
  unfold Work.enter
  rw [h.phase_eq, if_pos hready]
  exact ⟨⟨h.program_eq, h.policy_eq, h.capabilities_eq, h.sound⟩, h.io_eq, rfl⟩

theorem observe (h : d₀.Deciding p pol allowed phase d) (k : HeatKey) :
    (Work.observe k d).Meets (fun _ => d₀.Deciding p pol allowed phase) F S :=
  ⟨⟨h.program_eq, h.policy_eq, h.capabilities_eq, h.sound⟩, h.io_eq, h.phase_eq⟩

theorem onStore {α : Type} (h : d₀.Deciding p pol allowed phase d)
    {change : UnitStore → α × UnitStore}
    (hs : d.store.Sound p allowed → (change d.store).2.Sound p allowed) :
    (Work.onStore change d).Meets
      (fun a d' => d₀.Deciding p pol allowed phase d' ∧ a = (change d.store).1) F S :=
  ⟨⟨⟨h.program_eq, h.policy_eq, h.capabilities_eq, hs h.sound⟩, h.io_eq, h.phase_eq⟩, rfl⟩

end Desk.Deciding

/-- Control may go on after these instructions. -/
theorem Program.isSome_instr?_after {p : Program} {loc : Location} {i : Instr}
    (hi : p.instr? loc = some i) (hs : loc.pc + 1 ∈ i.successors loc.pc) :
    (p.instr? loc.after).isSome = true := by
  obtain ⟨fn, hfn, hcode⟩ := instr?_eq_some.mp hi
  have hlt := successor_lt hfn hcode hs
  rw [show p.instr? loc.after = fn.code[loc.pc + 1]? from instr?_of_function hfn]
  simp [hlt]

/-- The next address, if there is one, is the address after. -/
theorem next?_eq_after {loc next : Location} (h : inWidth loc.next? = .ok next) :
    next = loc.after := by
  have h := inWidth_eq_ok.mp h
  unfold Location.next? Word.next? at h
  split at h
  · cases h
    rfl
  · cases h

/-- An address after which there is code has a next address. -/
theorem Program.next?_of_isSome_instr? {p : Program} {loc : Location}
    (h : (p.instr? loc.after).isSome = true) : inWidth loc.next? = .ok loc.after := by
  obtain ⟨i, hi⟩ := Option.isSome_iff_exists.mp h
  obtain ⟨fn, hfn, hcode⟩ := instr?_eq_some.mp hi
  have hlt : loc.pc + 1 < fn.code.size := lt_of_getElem? hcode
  refine inWidth_eq_ok.mpr ?_
  unfold Location.next?
  rw [next?_cursor hfn (Nat.lt_of_succ_lt hlt)]
  rfl

namespace Engine

/-- The address to go on from, after a decision. -/
theorem next?_meets (h : d₀.Deciding p pol allowed phase d) (loc : Location) :
    (Work.lift (inWidth loc.next?) d).Meets
      (fun next d' => next = loc.after ∧ d₀.Deciding p pol allowed phase d')
      (Desk.Balks p pol allowed loc) False := by
  cases hn : inWidth loc.next? with
  | ok next => exact ⟨next?_eq_after hn, h⟩
  | error e =>
    refine ⟨h.sound, fun hi => ?_⟩
    rw [Program.next?_of_isSome_instr? hi] at hn
    cases hn

theorem interpretAfter_meets (h : d₀.Deciding p pol allowed phase d)
    (hready : phase.canTurnInto .interpreting = true) :
    (interpretAfter loc f d).Meets (d₀.Decided p pol allowed loc.after f)
      (Desk.Balks p pol allowed loc) False := by
  refine Work.meets_bind (next?_meets h loc) ?_
  rintro next d' ⟨rfl, h'⟩
  exact h'.decided hready (.interpret _ _)

theorem fallBackAfter_meets (h : d₀.Deciding p pol allowed phase d)
    (hready : phase.canTurnInto .fallingBack = true) :
    (fallBackAfter loc f d).Meets (d₀.Decided p pol allowed loc.after f)
      (Desk.Balks p pol allowed loc) False := by
  refine Work.meets_bind (next?_meets h loc) ?_
  rintro next d' ⟨rfl, h'⟩
  exact h'.decided hready (.fallBack _ _)

-- ============================================================================
-- Compiling
-- ============================================================================

/-- Compiling fails only if specialization does. -/
theorem compile_meets (h : d₀.Deciding p pol allowed phase d) (r : Region) (entry : UnitEntry)
    (f : Frame) :
    (compile r entry f d).Meets
      (fun c d' => d₀.Deciding p pol allowed phase d' ∧ ∀ u, c = .unit u → u.IsCompiled p pol r f)
      (fun _ d' => d' = d ∧ ¬ Succeeds (r.specialize d.guide)) False := by
  unfold compile
  rw [Work.desk_bind]
  cases hr : r.specialize d.guide with
  | ok verdict =>
    cases verdict with
    | committed t =>
      refine ⟨⟨⟨h.program_eq, h.policy_eq, h.capabilities_eq, h.sound.freshId⟩, h.io_eq,
        h.phase_eq⟩, ?_⟩
      rintro u ⟨⟩
      refine ⟨d.guide, t, h.program_eq, h.policy_eq, hr, ?_, rfl⟩
      cases hsimp : d.engine.simplifies with
      | true => exact Or.inr rfl
      | false => exact Or.inl rfl
    | empty =>
      exact ⟨⟨⟨h.program_eq, h.policy_eq, h.capabilities_eq, h.sound⟩, h.io_eq,
        h.phase_eq⟩, nofun⟩
    | fallback reason =>
      exact ⟨⟨⟨h.program_eq, h.policy_eq, h.capabilities_eq, h.sound⟩, h.io_eq,
        h.phase_eq⟩, nofun⟩
  | error e =>
    have hfail : ¬ Succeeds (Except.error e : Except Fault Verdict) := by
      rintro ⟨verdict, hv⟩
      cases hv
    cases e with
    | mergeIncompatible reason =>
      exact ⟨⟨⟨h.program_eq, h.policy_eq, h.capabilities_eq, h.sound.disable⟩, h.io_eq,
        h.phase_eq⟩, nofun⟩
    | _ => exact ⟨rfl, hfail⟩

/-- Where there is code, compiling fails only if the heat has grown too large. -/
theorem compile_entering_meets (h : d₀.Deciding p pol allowed phase d)
    (hbudget : pol.maxRegionInstrs ≤ 33554432) (hon : pol.enabled = true) (hf : f.IsFor p loc)
    (origin : Reg → Option Origin) (entry : UnitEntry) :
    (compile (Region.entering loc.after f origin) entry f d).Meets
      (fun c d' => d₀.Deciding p pol allowed phase d' ∧
        ∀ u, c = .unit u → u.IsCompiled p pol (Region.entering loc.after f origin) f)
      (Desk.Balks p pol allowed loc) False := by
  refine (compile_meets h _ entry f).imp (fun _ _ => id) ?_ id
  rintro e d' ⟨rfl, hfail⟩
  refine ⟨h.sound, fun hi => ⟨hon, fun htame => hfail ?_⟩⟩
  obtain ⟨fn, hfn, hsize⟩ := hf
  obtain ⟨i, hi⟩ := Option.isSome_iff_exists.mp hi
  obtain ⟨fn', hfn', hcode⟩ := Program.instr?_eq_some.mp hi
  rw [show p.functions[loc.after.func]? = some fn from hfn] at hfn'
  cases hfn'
  have hbudget' : d'.engine.policy.maxRegionInstrs ≤ 33554432 := h.policy_eq ▸ hbudget
  have hfn' : d'.engine.program.functions[loc.after.func]? = some fn := h.program_eq ▸ hfn
  exact Region.specialize_succeeds (g := d'.guide) htame hbudget' hfn' hsize
    (Program.lt_of_getElem? hcode)

/-- The region after an address, if there is a next address. -/
theorem entering_meets (h : d₀.Deciding p pol allowed phase d) (loc : Location) (f : Frame)
    (origin : Reg → Option Origin) :
    (Work.lift (inWidth loc.next? >>= fun next => .ok (Region.entering next f origin)) d).Meets
      (fun r d' => r = Region.entering loc.after f origin ∧ d₀.Deciding p pol allowed phase d')
      (Desk.Balks p pol allowed loc) False := by
  rw [Work.lift_bind_ok]
  refine Work.meets_bind (next?_meets h loc) ?_
  rintro next d' ⟨rfl, h'⟩
  exact ⟨rfl, h'⟩

/-- What is decided where a merge point has become hot. -/
theorem compileMergePoint_meets (h : d₀.Deciding p pol allowed phase d)
    (hready : phase.canTurnInto .compiling = true) (hbudget : pol.maxRegionInstrs ≤ 33554432)
    (hon : pol.enabled = true) (hh : allowed pol.loopHeadersOnly) (hf : f.IsFor p loc) :
    (compileMergePoint loc f (.ofFrame loc (p.greens loc) f) d).Meets
      (d₀.Decided p pol allowed loc.after f) (Desk.Balks p pol allowed loc) False := by
  refine Work.meets_bind (h.enter hready loc) (fun _ d₁ h₁ => ?_)
  rw [Work.desk_bind, h₁.program_eq]
  refine Work.meets_bind (entering_meets h₁ loc f _) ?_
  rintro r d₂ ⟨rfl, h₂⟩
  refine Work.meets_bind (compile_entering_meets h₂ hbudget hon hf _ _) ?_
  rintro c d₃ ⟨h₃, hc⟩
  cases c with
  | unit u =>
    have hserves := (hc u rfl).servesKey hf hh
    refine Work.meets_bind (h₃.onStore (fun hs => hs.install hserves)) ?_
    rintro - d₄ ⟨h₄, -⟩
    exact h₄.decided rfl (.execute hh ((hc u rfl).faithful_self hf))
  | interpret => exact interpretAfter_meets h₃ rfl
  | fallBack => exact fallBackAfter_meets h₃ rfl

/-- What is decided at a merge point. -/
theorem onMergePoint_meets (h : d₀.Deciding p pol allowed phase d)
    (hready : phase.canTurnInto .armed = true) (hbudget : pol.maxRegionInstrs ≤ 33554432)
    (hh : allowed pol.loopHeadersOnly) (hf : f.IsFor p loc) :
    (onMergePoint loc f d).Meets (d₀.Decided p pol allowed loc.after f)
      (Desk.Balks p pol allowed loc) False := by
  refine Work.meets_bind (h.enter hready loc) (fun _ d₁ h₁ => ?_)
  refine Work.meets_bind (h₁.tally _) (fun _ d₂ h₂ => ?_)
  rw [Work.desk_bind, h₂.program_eq, h₂.policy_eq]
  by_cases hactive : d₂.isActive = true
  · rw [if_pos hactive]
    have hon : pol.enabled = true := by
      rw [← h₂.policy_eq]
      exact (Bool.and_eq_true_iff.mp hactive).1
    cases hu : CodeUnit.fitting? f (d₂.store.lookup (.ofFrame loc (p.greens loc) f)) with
    | some u =>
      have hlookup := (CodeUnit.fitting?_eq_some hu).1
      obtain ⟨rule, hrule, hfaith⟩ := h₂.sound.keys _ _ hlookup
      exact h₂.decided rfl (.execute hrule (hfaith f hf rfl))
    | none =>
      refine Work.meets_bind (h₂.observe _) (fun count d₃ h₃ => ?_)
      split
      · exact interpretAfter_meets h₃ rfl
      · exact compileMergePoint_meets h₃ rfl hbudget hon hh hf
  · rw [if_neg hactive]
    exact interpretAfter_meets h₂ rfl

/-- What is decided where a region after a promotion site is compiled. -/
theorem compilePromotion_meets (h : d₀.Deciding p pol allowed phase d)
    (hready : ∀ new, phase.canTurnInto new = true) (hbudget : pol.maxRegionInstrs ≤ 33554432)
    (hon : pol.enabled = true) (hh : allowed pol.loopHeadersOnly) (hf : f.IsFor p loc)
    (entry : UnitEntry) {origin : Reg → Option Origin}
    {install : CodeUnit → UnitStore → Bool × UnitStore}
    (hinstall : ∀ u s, u.IsCompiled p pol (Region.entering loc.after f origin) f →
      s.Sound p allowed → (install u s).2.Sound p allowed) :
    (compilePromotion loc f entry (Region.entering loc.after f origin) install d).Meets
      (d₀.Decided p pol allowed loc.after f) (Desk.Balks p pol allowed loc) False := by
  unfold compilePromotion
  rw [Work.desk_bind]
  split
  · exact fallBackAfter_meets h (hready _)
  · refine Work.meets_bind (h.enter (hready _) loc) (fun _ d₁ h₁ => ?_)
    refine Work.meets_bind (compile_entering_meets h₁ hbudget hon hf _ _) ?_
    rintro c d₂ ⟨h₂, hc⟩
    cases c with
    | unit u =>
      refine Work.meets_bind (h₂.onStore (hinstall u _ (hc u rfl))) ?_
      rintro - d₃ ⟨h₃, -⟩
      exact h₃.decided rfl (.execute hh ((hc u rfl).faithful_self hf))
    | interpret => exact fallBackAfter_meets h₂ rfl
    | fallBack => exact fallBackAfter_meets h₂ rfl

/-- What the decision at a promotion site rests on. -/
theorem decidePromotion_meets (h : d₀.Deciding p pol allowed phase d) (site : Location)
    (value : Value) (f : Frame) (F : Fault → Desk → Prop) :
    (decidePromotion site value f d).Meets
      (fun decision d' => d₀.Deciding p pol allowed phase d' ∧
        ∃ (s : UnitStore) (count : Nat), s.Sound p allowed ∧
          decision = (s.decide pol.promotionThreshold site value count f).1) F False := by
  refine Work.meets_bind (h.onStore (fun hs => hs.heatKey site value)) ?_
  rintro k d₁ ⟨h₁, -⟩
  refine Work.meets_bind (h₁.observe k) (fun count d₂ h₂ => ?_)
  rw [Work.desk_bind, h₂.policy_eq]
  refine (h₂.onStore (fun hs => hs.decide _ site value count f)).imp ?_ (fun _ _ => id) id
  rintro decision d₃ ⟨h₃, hdecision⟩
  exact ⟨h₃, d₂.store, count, h₂.sound, hdecision⟩

/-- What is decided at a promotion site. -/
theorem onPromotion_meets {reg : Reg} (h : d₀.Deciding p pol allowed phase d)
    (hready : ∀ new, phase.canTurnInto new = true) (hbudget : pol.maxRegionInstrs ≤ 33554432)
    (hh : allowed pol.loopHeadersOnly) (hf : f.IsFor p loc)
    (hsite : ∀ r, p.instr? loc = some (.promote r) → r = reg) :
    (onPromotion loc reg f d).Meets
      (fun next d' => ∃ f', d₀.Decided p pol allowed loc.after f' next d' ∧ f'.size = f.size ∧
        (p.instr? loc = some (.promote reg) → f' = f))
      (Desk.Balks p pol allowed loc) False := by
  -- in all cases but that of an installed unit, it is the frame itself
  have hself : ∀ {o : Outcome Desk Next},
      o.Meets (d₀.Decided p pol allowed loc.after f) (Desk.Balks p pol allowed loc) False →
      o.Meets (fun next d' => ∃ f', d₀.Decided p pol allowed loc.after f' next d' ∧
        f'.size = f.size ∧ (p.instr? loc = some (.promote reg) → f' = f))
        (Desk.Balks p pol allowed loc) False :=
    fun ho => ho.imp (fun _ _ hd => ⟨f, hd, rfl, fun _ => rfl⟩) (fun _ _ => id) id
  refine Work.meets_bind (h.tally _) (fun _ d₁ h₁ => ?_)
  rw [Work.desk_bind]
  by_cases hactive : (d₁.isActive && !f.isTainted reg) = true
  · rw [if_pos hactive]
    obtain ⟨hactive, hreg⟩ := Bool.and_eq_true_iff.mp hactive
    have hreg : f.isTainted reg = false := by simpa using hreg
    have hon : pol.enabled = true := by
      rw [← h₁.policy_eq]
      exact (Bool.and_eq_true_iff.mp hactive).1
    refine Work.meets_bind (decidePromotion_meets h₁ loc (f.get reg) f _) ?_
    rintro decision d₂ ⟨h₂, s, count, hs, hdecision⟩
    cases decision with
    | cached u =>
      obtain ⟨rule, f', hrule, hfaith, hsize, hself'⟩ := hs.decide_eq_cached hf hdecision.symm
      exact ⟨f', h₂.decided (hready _) (.execute hrule hfaith), hsize, fun hi => hself' reg hi rfl⟩
    | fallback => exact hself (fallBackAfter_meets h₂ (hready _))
    | specialize =>
      refine hself (Work.meets_bind (entering_meets h₂ loc f _) ?_)
      rintro r d₃ ⟨rfl, h₃⟩
      refine compilePromotion_meets h₃ hready hbudget hon hh hf _ (fun u s hu hs => ?_)
      exact hs.installPromotion (hu.serves hf hreg hsite hh)
    | specializeGeneric =>
      refine hself (Work.meets_bind (next?_meets h₂ loc) ?_)
      rintro next d₃ ⟨rfl, h₃⟩
      refine compilePromotion_meets h₃ hready hbudget hon hh hf _ (fun u s hu hs => ?_)
      exact hs.installGeneric (hu.servesSite hf hh)
  · rw [if_neg hactive]
    exact hself (fallBackAfter_meets h₁ (hready _))

end Engine

end HotPath
