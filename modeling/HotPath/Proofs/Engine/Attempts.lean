/-
  HotPath.Proofs.Engine.Attempts

  The attempts of an engine to compile. An arrival that is hot and has no unit calls for one
  (`Books.due?`), and the engine makes it unless the place is known to be empty
  (`Books.attempt?`). A journal (`Worker.Journal`) follows an engine with a store of its own
  through any calls, and lists the attempts that it has made: each with the frame and the
  register that it was made for, and with the guide that it went by.

  What a step of the engine does to its memo of empty places is what comes of the attempt
  that it makes (`Worker.learns_of_step?`). So the memo can be read off the journal: a place
  is in it if the last attempt at the place found nothing, and only then
  (`Worker.Journal.contains_eq`).
-/
import HotPath.Proofs.Engine.Ledger
import HotPath.Proofs.Engine.Thresholds
import HotPath.Proofs.Region.Empty

namespace HotPath

/-- An attempt to compile: the place, the frame of the arrival, the register if the place is
for one, the region that they open, and all that the attempt consults. -/
structure Attempt where
  entry : UnitEntry
  frame : Frame
  reg : Option Reg
  region : Region
  guide : Guide

namespace Attempt

variable {t : Attempt}

/-- Whether it finds nothing to execute. -/
def isEmpty (t : Attempt) : Bool :=
  match t.region.specialize t.guide with
  | .ok .empty => true
  | _ => false

/-- The promotion site at which it ends, if it ends at one. -/
def stop? (t : Attempt) : Option Location := t.region.stop? t.guide

theorem isEmpty_iff : t.isEmpty = true ↔ t.region.specialize t.guide = .ok .empty := by
  unfold isEmpty
  split
  · next h => exact iff_of_true rfl h
  · next h => exact iff_of_false Bool.false_ne_true h

/-- The first attempt at a place in a list, which is the last one that was made. -/
def lastAt? (tries : List Attempt) (entry : UnitEntry) : Option Attempt :=
  tries.find? (fun t => t.entry = entry)

theorem lastAt?_cons (t : Attempt) (tries : List Attempt) (entry : UnitEntry) :
    lastAt? (t :: tries) entry = if t.entry = entry then some t else lastAt? tries entry := by
  unfold lastAt?
  rw [List.find?_cons]
  split
  · next h => rw [if_pos (of_decide_eq_true h)]
  · next h => rw [if_neg (of_decide_eq_false h)]

theorem lastAt?_eq_some {tries : List Attempt} {entry : UnitEntry}
    (h : lastAt? tries entry = some t) : t ∈ tries ∧ t.entry = entry := by
  have hentry := List.find?_some h
  exact ⟨List.mem_of_find?_eq_some h, of_decide_eq_true hentry⟩

end Attempt

/-- Whether an engine in a phase can go on to compile at an arrival. -/
def Arrival.admits (phase : Phase) : Arrival → Bool
  | .mergePoint .. => phase.canTurnInto .armed
  | .promotion .. => phase.canTurnInto .compiling

namespace Books

/-- The attempt that a decision about a value calls for. -/
def dueFor? (p : Program) (pol : Policy) (b : Books) (site : Location) (reg : Reg) (f : Frame) :
    Decision → Option Attempt
  | .specialize =>
    (Region.atPromotion site reg f).toOption.map (fun r =>
      ⟨.promotion site (f.get reg), f, some reg, r, (b.noted site (f.get reg)).guide p pol⟩)
  | .specializeGeneric =>
    (inWidth site.next?).toOption.map (fun next =>
      ⟨.generic site, f, none, .generic next f, (b.noted site (f.get reg)).guide p pol⟩)
  | .cached _ | .fallback => none

/-- The attempt that an arrival calls for, if it is hot and has no unit. -/
def due? (p : Program) (pol : Policy) (b : Books) : Arrival → Option Attempt
  | .mergePoint loc f =>
    let k := MergeKey.ofFrame loc (p.greens loc) f
    if b.isActive pol ∧ (CodeUnit.fitting? f (b.store.lookup k)).isNone ∧
        pol.mergePointThreshold ≤ (b.heat.observe (.mergePoint k)).1 then
      (Region.atMergePoint loc (p.greens loc) f).toOption.map (fun r =>
        ⟨.mergePoint k, f, none, r, (b.counted (.mergePoint k)).guide p pol⟩)
    else none
  | .promotion site reg f =>
    if b.isActive pol && !f.isTainted reg then
      b.dueFor? p pol site reg f (b.decide pol site (f.get reg) f).1
    else none

/-- The attempt that an engine in a phase makes at an arrival. -/
def attempt? (p : Program) (pol : Policy) (b : Books) (phase : Phase) (a : Arrival) :
    Option Attempt :=
  (b.due? p pol a).filter (fun t => a.admits phase && !b.empty.contains t.entry)

section

variable {p : Program} {pol : Policy} {b : Books} {phase : Phase} {a : Arrival}

theorem entry_of_due? {loc : Location} {f : Frame} {t : Attempt}
    (h : b.due? p pol (.mergePoint loc f) = some t) :
    t.entry = .mergePoint (.ofFrame loc (p.greens loc) f) := by
  unfold due? at h
  dsimp only at h
  split at h
  · obtain ⟨r, -, rfl⟩ := Option.map_eq_some_iff.mp h
    rfl
  · cases h

/-- An arrival at a place that is known to be empty, or in a phase in which nothing can be
compiled, is passed over. -/
theorem attempt?_eq_none (h : ∀ t, b.due? p pol a = some t →
    a.admits phase = false ∨ b.empty.contains t.entry = true) :
    b.attempt? p pol phase a = none := by
  refine Option.filter_eq_none_iff.mpr (fun t ht hmade => ?_)
  obtain ⟨hadmits, hnew⟩ := Bool.and_eq_true_iff.mp hmade
  rcases h t ht with hrefused | hknown
  · rw [hrefused] at hadmits
    cases hadmits
  · rw [hknown] at hnew
    cases hnew

/-- Otherwise the attempt is made. -/
theorem attempt?_eq_due? (hadmits : a.admits phase = true)
    (hnew : ∀ t, b.due? p pol a = some t → b.empty.contains t.entry = false) :
    b.attempt? p pol phase a = b.due? p pol a := by
  unfold attempt?
  cases hdue : b.due? p pol a with
  | none => rfl
  | some t => rw [Option.filter_some, hadmits, hnew t hdue]; rfl

end

/-- What comes of an attempt, if one is made: its place is put into the memo if it has found
nothing, and then nothing is installed either. -/
inductive Learns (b : Books) : Option Attempt → Books → Prop where
  | nothing {b' : Books} (hempty : b'.empty = b.empty) : Learns b none b'
  | something {t : Attempt} {b' : Books} (ht : t.isEmpty = false) (hempty : b'.empty = b.empty) :
    Learns b (some t) b'
  | empty {t : Attempt} {b' : Books} (ht : t.isEmpty = true)
    (hempty : b'.empty = b.empty.add t.entry) (hstore : b'.store = t.guide.store) :
    Learns b (some t) b'

variable {b b₁ b' : Books} {t? : Option Attempt}

theorem Learns.passed {p : Program} {pol : Policy} {phase : Phase} {a : Arrival}
    (h : ∀ t, b.due? p pol a = some t → a.admits phase = false ∨ b.empty.contains t.entry = true)
    (hempty : b'.empty = b.empty) : b.Learns (b.attempt? p pol phase a) b' := by
  rw [attempt?_eq_none h]
  exact .nothing hempty

theorem Learns.not_due {p : Program} {pol : Policy} {phase : Phase} {a : Arrival}
    (h : b.due? p pol a = none) (hempty : b'.empty = b.empty) :
    b.Learns (b.attempt? p pol phase a) b' := by
  refine passed (fun t ht => ?_) hempty
  rw [h] at ht
  cases ht

/-- Only the memo matters for what was known before. -/
theorem Learns.of_empty_eq (h : b₁.Learns t? b') (heq : b₁.empty = b.empty) : b.Learns t? b' := by
  cases h with
  | nothing hempty => exact .nothing (hempty.trans heq)
  | something ht hempty => exact .something ht (hempty.trans heq)
  | empty ht hempty hstore => exact .empty ht (heq ▸ hempty) hstore

end Books

/-- The attempt that the engine of a desk makes at an arrival that it meets in a phase. -/
def Desk.attempt? (d : Desk) (phase : Phase) (a : Arrival) : Option Attempt :=
  d.books.attempt? d.engine.program d.engine.policy phase a

-- ============================================================================
-- Compiling
-- ============================================================================

namespace Engine

theorem compile_learns (r : Region) (entry : UnitEntry) (f : Frame) (reg : Option Reg) (d : Desk)
    {t : Attempt} (ht : t = ⟨entry, f, reg, r, d.guide⟩) :
    (compile r entry f d).Meets
      (fun c d' => d.books.Learns (some t) d'.books ∧ (c.unit? ≠ none → t.isEmpty = false))
      (fun _ d' => d.books.Learns (some t) d'.books) True := by
  subst ht
  have hsome : ∀ {x : Except Fault Verdict}, r.specialize d.guide = x → x ≠ .ok .empty →
      Attempt.isEmpty ⟨entry, f, reg, r, d.guide⟩ = false := by
    intro x hx hne
    rw [← hx] at hne
    exact Bool.eq_false_iff.mpr (fun h => hne (Attempt.isEmpty_iff.mp h))
  unfold compile
  rw [Work.desk_bind]
  cases hx : r.specialize d.guide with
  | ok verdict =>
    cases verdict with
    | committed trace =>
      have hfound := hsome hx (fun h => by cases h)
      exact ⟨.something hfound rfl, fun _ => hfound⟩
    | empty => exact ⟨.empty (Attempt.isEmpty_iff.mpr hx) rfl rfl, fun h => absurd rfl h⟩
    | fallback reason =>
      have hfound := hsome hx (fun h => by cases h)
      exact ⟨.something hfound rfl, fun _ => hfound⟩
  | error e =>
    have hfound := hsome hx (fun h => by cases h)
    cases e with
    | mergeIncompatible reason => exact ⟨.something hfound rfl, fun _ => hfound⟩
    | _ => exact .something hfound rfl

/-- Compiling, and going on in a way that leaves the memo alone and the store as well unless
there is a unit. -/
theorem compile_bind_learns {r : Region} {entry : UnitEntry} {f : Frame} (reg : Option Reg)
    {d : Desk} {go : Compiled → Work Next}
    (hunit : ∀ u d', (go (.unit u) d').Leaves (fun d'' => d''.books.empty = d'.books.empty))
    (hnone : ∀ c d', c.unit? = none → (go c d').Leaves (· = d')) :
    ((compile r entry f >>= go) d).Leaves
      (fun d' => d.books.Learns (some ⟨entry, f, reg, r, d.guide⟩) d'.books) := by
  refine Work.meets_bind (compile_learns r entry f reg d rfl) (fun c d₁ h₁ => ?_)
  obtain ⟨hlearns, hfound⟩ := h₁
  cases c with
  | unit u =>
    refine (hunit u d₁).imp (fun d' hd' => ?_)
    cases hlearns with
    | something ht hempty => exact .something ht (hd'.trans hempty)
    | empty ht =>
      rw [hfound (fun h => by cases h)] at ht
      cases ht
  | interpret => exact (hnone _ d₁ rfl).imp (fun _ hd' => hd' ▸ hlearns)
  | fallBack => exact (hnone _ d₁ rfl).imp (fun _ hd' => hd' ▸ hlearns)

end Engine

-- ============================================================================
-- Arrivals
-- ============================================================================

theorem Desk.Keeps.guide_eq {d d' : Desk} (h : d.Keeps d') : d'.guide = d.guide := by
  show d'.books.guide d'.engine.program d'.engine.policy = d.books.guide _ _
  rw [h.books_eq, h.program_eq, h.policy_eq]

theorem Desk.Keeps.attempt?_eq {d d' : Desk} (h : d.Keeps d') (phase : Phase) (a : Arrival) :
    d'.attempt? phase a = d.attempt? phase a := by
  unfold Desk.attempt?
  rw [h.books_eq, h.program_eq, h.policy_eq]

theorem Work.enter_of_can {new : Phase} {d : Desk} (h : d.engine.phase.canTurnInto new = true)
    (loc : Location) : ∃ d', Work.enter new loc d = .done () d' ∧ d.Keeps d' :=
  ⟨_, if_pos h, rfl, rfl, rfl⟩

namespace Engine

theorem compileMergePoint_learns {d : Desk} (hphase : d.engine.phase = .armed) (loc : Location)
    (f : Frame) (k : MergeKey) :
    (compileMergePoint loc f k d).Leaves (fun d' => d.books.Learns
      ((Region.atMergePoint loc (d.engine.program.greens loc) f).toOption.map (fun r =>
        ⟨.mergePoint k, f, none, r, d.guide⟩)) d'.books) := by
  have hcan : d.engine.phase.canTurnInto .compiling = true := by rw [hphase]; rfl
  obtain ⟨d₁, hd₁, hkeeps⟩ := Work.enter_of_can hcan loc
  unfold compileMergePoint
  rw [Work.bind_apply, hd₁]
  dsimp only
  rw [Work.desk_bind, Work.bind_apply, ← hkeeps.program_eq, ← hkeeps.books_eq, ← hkeeps.guide_eq]
  cases hr : Region.atMergePoint loc (d₁.engine.program.greens loc) f with
  | error e => exact Books.Learns.nothing rfl
  | ok r =>
    refine compile_bind_learns none (fun _ _ => rfl) (fun c d' hc => ?_)
    cases c with
    | unit u => cases hc
    | interpret => exact leaves_interpretAfter loc f d'
    | fallBack => exact leaves_fallBackAfter loc f d'

/-- What an engine learns from an arrival at a merge point. -/
theorem onMergePoint_learns (loc : Location) (f : Frame) (d : Desk) :
    (onMergePoint loc f d).Leaves (fun d' =>
      d.books.Learns (d.attempt? d.engine.phase (.mergePoint loc f)) d'.books) := by
  generalize hk : MergeKey.ofFrame loc (d.engine.program.greens loc) f = k
  have hdue : d.books.due? d.engine.program d.engine.policy (.mergePoint loc f) =
      if d.isActive = true ∧ (CodeUnit.fitting? f (d.store.lookup k)).isNone = true ∧
          d.engine.policy.mergePointThreshold ≤ (d.engine.heat.observe (.mergePoint k)).1 then
        (Region.atMergePoint loc (d.engine.program.greens loc) f).toOption.map (fun r =>
          ⟨.mergePoint k, f, none, r, ((d.armed loc).counted (.mergePoint k)).guide⟩)
      else none := by
    subst hk
    rfl
  have hentry : ∀ t, d.books.due? d.engine.program d.engine.policy (.mergePoint loc f) = some t →
      t.entry = .mergePoint k := fun t ht => hk ▸ Books.entry_of_due? ht
  by_cases hphase : d.engine.phase = .compiling
  · rw [onMergePoint_refused hphase]
    refine Books.Learns.passed (fun t _ => Or.inl ?_) rfl
    rw [hphase]
    rfl
  by_cases hactive : d.isActive = true
  · cases hu : CodeUnit.fitting? f (d.store.lookup k) with
    | some u =>
      rw [onMergePoint_unit hphase hactive (hk ▸ hu)]
      refine Books.Learns.not_due ?_ rfl
      rw [hdue, hu]
      exact if_neg (fun h => by cases h.2.1)
    | none =>
      rw [onMergePoint_counted hphase hactive hk.symm hu]
      split
      · next hcold =>
        refine (leaves_interpretAfter loc f _).imp ?_
        rintro _ rfl
        rcases hcold with hcold | hknown
        · exact .not_due (hdue.trans (if_neg (fun h => Nat.not_lt.mpr h.2.2 hcold))) rfl
        · exact .passed (fun t ht => Or.inr ((hentry t ht).symm ▸ hknown)) rfl
      · next hhot =>
        obtain ⟨hhot, hnew⟩ := not_or.mp hhot
        have hadmits : (Arrival.mergePoint loc f).admits d.engine.phase = true :=
          Phase.canTurnInto_armed_iff.mpr hphase
        have hmade := Books.attempt?_eq_due? hadmits
          (fun t ht => (hentry t ht).symm ▸ Bool.eq_false_iff.mpr hnew)
        rw [Desk.attempt?, hmade, hdue, if_pos ⟨hactive, hu ▸ rfl, Nat.le_of_not_lt hhot⟩]
        exact (compileMergePoint_learns rfl loc f k).imp (fun _ h => h.of_empty_eq rfl)
  · rw [onMergePoint_inactive hphase (Bool.eq_false_iff.mpr hactive)]
    refine (leaves_interpretAfter loc f _).imp ?_
    rintro _ rfl
    exact .not_due (hdue.trans (if_neg (fun h => hactive h.1))) rfl

theorem compilePromotion_learns (site : Location) (f : Frame) (entry : UnitEntry)
    (reg : Option Reg) (r : Region) (install : CodeUnit → UnitStore → Bool × UnitStore) (d : Desk) :
    (compilePromotion site f entry r install d).Leaves (fun d' => d.books.Learns
      ((some ⟨entry, f, reg, r, d.guide⟩ : Option Attempt).filter (fun t =>
        d.engine.phase.canTurnInto .compiling && !d.engine.emptyEntries.contains t.entry))
      d'.books) := by
  unfold compilePromotion
  rw [Work.desk_bind, Option.filter_some]
  cases hknown : d.engine.emptyEntries.contains entry with
  | true =>
    rw [if_pos rfl, Bool.not_true, Bool.and_false]
    exact (leaves_fallBackAfter site f d).imp (fun _ h => h ▸ .nothing rfl)
  | false =>
    rw [if_neg Bool.false_ne_true, Bool.not_false, Bool.and_true]
    cases hcan : d.engine.phase.canTurnInto .compiling with
    | false =>
      rw [Work.bind_apply, Work.enter, if_neg (Bool.eq_false_iff.mp hcan)]
      exact .nothing rfl
    | true =>
      obtain ⟨d₁, hd₁, hkeeps⟩ := Work.enter_of_can hcan site
      rw [Work.bind_apply, hd₁, if_pos rfl, ← hkeeps.books_eq, ← hkeeps.guide_eq]
      refine compile_bind_learns reg (fun _ _ => rfl) (fun c d' hc => ?_)
      cases c with
      | unit u => cases hc
      | interpret => exact leaves_fallBackAfter site f d'
      | fallBack => exact leaves_fallBackAfter site f d'

/-- Compiling after a decision that has left the store alone. -/
theorem decided_learns {d : Desk} {site : Location} {v : Value} {f : Frame}
    (hstore : (d.books.decide d.engine.policy site v f).2 = (d.books.noted site v).store)
    (entry : UnitEntry) (reg : Option Reg) (r : Region)
    (install : CodeUnit → UnitStore → Bool × UnitStore) :
    (compilePromotion site f entry r install (d.decided site v f)).Leaves (fun d' =>
      d.books.Learns ((some ⟨entry, f, reg, r, (d.books.noted site v).guide d.engine.program
        d.engine.policy⟩ : Option Attempt).filter (fun t =>
          d.engine.phase.canTurnInto .compiling && !d.engine.emptyEntries.contains t.entry))
        d'.books) := by
  have hlearns := compilePromotion_learns site f entry reg r install (d.decided site v f)
  have hguide : (d.decided site v f).guide =
      (d.books.noted site v).guide d.engine.program d.engine.policy := by
    show (d.decided site v f).books.guide _ _ = _
    rw [Desk.books_decided hstore]
    rfl
  rw [hguide] at hlearns
  exact hlearns.imp (fun _ h => h.of_empty_eq rfl)

/-- What an engine learns from a value at a promotion site. -/
theorem onPromotion_learns (site : Location) (reg : Reg) (f : Frame) (d : Desk) :
    (onPromotion site reg f d).Leaves (fun d' =>
      d.books.Learns (d.attempt? d.engine.phase (.promotion site reg f)) d'.books) := by
  generalize hd₁ : ({ d with engine := { d.engine with stats := { d.engine.stats with
    promotionExits := d.engine.stats.promotionExits + 1 } } } : Desk) = d₁
  have hkeeps : d.Keeps d₁ := hd₁ ▸ ⟨rfl, rfl, rfl⟩
  have hphase : d₁.engine.phase = d.engine.phase := hd₁ ▸ rfl
  have htally : Work.tally (fun s => { s with promotionExits := s.promotionExits + 1 }) d =
      .done () d₁ := hd₁ ▸ rfl
  unfold onPromotion
  rw [Work.bind_apply, htally, ← hkeeps.books_eq, ← hkeeps.attempt?_eq, ← hphase]
  dsimp only
  rw [Work.desk_bind]
  have hidle : ¬ (d₁.isActive && !f.isTainted reg) = true → d₁.books.due? d₁.engine.program
      d₁.engine.policy (.promotion site reg f) = none := fun h => if_neg h
  have hdue : (d₁.isActive && !f.isTainted reg) = true → d₁.books.due? d₁.engine.program
      d₁.engine.policy (.promotion site reg f) = d₁.books.dueFor? d₁.engine.program
        d₁.engine.policy site reg f (d₁.books.decide d₁.engine.policy site (f.get reg) f).1 :=
    fun h => if_pos h
  split
  · next hactive =>
    replace hdue := hdue hactive
    rw [Work.bind_apply, decidePromotion_eq]
    cases hdecision : (d₁.books.decide d₁.engine.policy site (f.get reg) f).1 with
    | cached u =>
      rw [hdecision] at hdue
      exact Books.Learns.not_due hdue rfl
    | fallback =>
      refine (leaves_fallBackAfter site f _).imp ?_
      rintro _ rfl
      rw [hdecision] at hdue
      exact .not_due hdue rfl
    | specialize =>
      have hstore := (UnitStore.decide_eq_specialize hdecision).1
      dsimp only
      rw [Work.bind_apply]
      cases hr : Region.atPromotion site reg f with
      | error e =>
        rw [hdecision, Books.dueFor?, hr] at hdue
        exact Books.Learns.not_due hdue rfl
      | ok r =>
        rw [Desk.attempt?, Books.attempt?, hdue, hdecision, Books.dueFor?, hr]
        exact decided_learns hstore (.promotion site (f.get reg)) (some reg) r _
    | specializeGeneric =>
      have hstore := (UnitStore.decide_eq_specializeGeneric hdecision).1
      dsimp only
      rw [Work.bind_apply]
      cases hr : inWidth site.next? with
      | error e =>
        rw [hdecision, Books.dueFor?, hr] at hdue
        exact Books.Learns.not_due hdue rfl
      | ok next =>
        rw [Desk.attempt?, Books.attempt?, hdue, hdecision, Books.dueFor?, hr]
        exact decided_learns hstore (.generic site) none (.generic next f) _
  · next h =>
    refine (leaves_fallBackAfter site f _).imp ?_
    rintro _ rfl
    exact .not_due (hidle h) rfl

end Engine

-- ============================================================================
-- Turns
-- ============================================================================

/-- The desk of an engine that has turned to a unit. -/
def Desk.executing (d : Desk) (loc : Location) : Desk :=
  { d with engine := { d.engine.turnInto .executing loc with
      stats := { d.engine.stats with compiledRuns := d.engine.stats.compiledRuns + 1 } } }

namespace Engine

/-- The attempt that is made after a unit left. -/
def exitAttempt? (d : Desk) (e : Exit) : Option Attempt :=
  match e.kind with
  | .promotion reg => d.attempt? .executing (.promotion e.loc reg e.frame)
  | .fallback | .mergePoint | .returned _ => none

/-- The attempt that is made in a turn. -/
def turnAttempt? (fuel : Nat) (d : Desk) : Next → Option Attempt
  | .arrive loc f => d.attempt? d.engine.phase (.mergePoint loc f)
  | .execute u f =>
    if d.engine.phase.canTurnInto .executing then
      (u.run d.engine.unitMachine fuel f d.io).result?.bind (exitAttempt? d)
    else none
  | .interpret .. | .fallBack .. | .finish _ => none

/-- The attempt that is made when a call is taken up. -/
def Call.attempt? (d : Desk) : Call → Option Attempt
  | .arrival (.promotion site reg f) => d.attempt? d.engine.phase (.promotion site reg f)
  | .arrival (.mergePoint ..) | .program | .run .. => none

theorem afterUnit_learns {d : Desk} (hphase : d.engine.phase = .executing) (single : Bool)
    (e : Exit) :
    (afterUnit single e d).Leaves (fun d' => d.books.Learns (exitAttempt? d e) d'.books) := by
  unfold afterUnit exitAttempt?
  cases e.kind with
  | promotion reg =>
    have hlearns := onPromotion_learns e.loc reg e.frame d
    rw [hphase] at hlearns
    exact hlearns
  | fallback | mergePoint | returned v => exact Books.Learns.nothing rfl

/-- A segment teaches nothing. -/
theorem interpret_learns (fuel : Nat) (single : Bool) (loc : Location) (f : Frame) (d : Desk) :
    (interpret fuel single loc f d).Leaves (fun d' => d.books.Learns none d'.books) := by
  unfold interpret Machine.segment
  cases d.engine.interpreter.resume fuel loc f d.profile.io with
  | starved => exact trivial
  | done e t => exact Books.Learns.nothing rfl
  | failed e t =>
    cases e with
    | gap => exact Books.Learns.nothing rfl
    | _ => exact Books.Learns.nothing rfl

theorem turn_execute {d : Desk} (h : d.engine.phase.canTurnInto .executing = true) (fuel : Nat)
    (single : Bool) (u : CodeUnit) (f : Frame) :
    turn fuel single (.execute u f) d =
      (runUnit fuel u f >>= afterUnit single) (d.executing u.entry.loc) := by
  rw [turn, Work.bind_apply, Work.enter, if_pos h]
  rfl

/-- What an engine learns from running a unit. -/
theorem execute_learns (fuel : Nat) (single : Bool) (u : CodeUnit) (f : Frame) (d : Desk) :
    (turn fuel single (.execute u f) d).Leaves (fun d' =>
      d.books.Learns (turnAttempt? fuel d (.execute u f)) d'.books) := by
  rw [turnAttempt?]
  by_cases hcan : d.engine.phase.canTurnInto .executing = true
  · have hmachine : (d.executing u.entry.loc).engine.unitMachine = d.engine.unitMachine := rfl
    have hio : (d.executing u.entry.loc).io = d.io := rfl
    rw [turn_execute hcan, if_pos hcan, Work.bind_apply, runUnit, hmachine, hio]
    cases u.run d.engine.unitMachine fuel f d.io with
    | starved => exact trivial
    | failed e io => exact Books.Learns.nothing rfl
    | done e io => exact afterUnit_learns rfl single e
  · rw [turn, Work.bind_apply, Work.enter, if_neg hcan, if_neg hcan]
    exact Books.Learns.nothing rfl

/-- What an engine learns in a turn. -/
theorem turn_learns (fuel : Nat) (single : Bool) (next : Next) (d : Desk) :
    (turn fuel single next d).Leaves (fun d' =>
      d.books.Learns (turnAttempt? fuel d next) d'.books) := by
  have hsegment : ∀ phase loc f change, ((do
      Work.enter phase loc
      Work.tally change
      interpret fuel single loc f : Work Next) d).Leaves
        (fun d' => d.books.Learns none d'.books) := by
    intro phase loc f change
    refine Work.leaves_bind (Work.leaves_enter phase loc d)
      (fun _ h => h.books_eq ▸ .nothing rfl) (fun _ d₁ h₁ => ?_)
    rw [← h₁.books_eq]
    exact interpret_learns fuel single loc f _
  cases next with
  | arrive loc f => exact onMergePoint_learns loc f d
  | interpret loc f => exact hsegment _ _ _ _
  | fallBack loc f => exact hsegment _ _ _ _
  | execute u f => exact execute_learns fuel single u f d
  | finish e => exact Books.Learns.nothing rfl

theorem Job.lap_learns (fuel : Nat) (job : Job) (d : Desk) :
    (job.lap fuel d).Leaves (fun d' =>
      d.books.Learns (turnAttempt? fuel d job.next) d'.books) := by
  have hturn : ∀ next, ((do
      let next ← turn fuel job.single next
      return some ⟨job.single, next⟩ : Work (Option Job)) d).Leaves (fun d' =>
        d.books.Learns (turnAttempt? fuel d next) d'.books) := fun next =>
    Work.leaves_bind (turn_learns fuel job.single next d) (fun _ => id) (fun _ _ => id)
  unfold lap
  cases job.next with
  | finish e =>
    exact Work.leaves_bind (Work.leaves_enter .interpreting e.loc d)
      (fun _ h => .nothing (h.books_eq ▸ rfl)) (fun _ _ h => .nothing (h.books_eq ▸ rfl))
  | arrive | interpret | fallBack | execute => exact hturn _

theorem Call.begin_learns (c : Call) (d : Desk) :
    (c.begin d).Leaves (fun d' => d.books.Learns (c.attempt? d) d'.books) := by
  cases c with
  | program => exact Books.Learns.nothing rfl
  | run loc f => exact Books.Learns.nothing rfl
  | arrival a =>
    cases a with
    | mergePoint loc f => exact Books.Learns.nothing rfl
    | promotion site reg f =>
      exact Work.leaves_bind (onPromotion_learns site reg f d) (fun _ => id) (fun _ _ => id)

end Engine

-- ============================================================================
-- Journals
-- ============================================================================

namespace Worker

variable {w w' : Worker} {s s' : UnitStore}

/-- The attempt that a worker makes in a step. -/
def attempt? (w : Worker) (s : UnitStore) (a : Act) : Option Attempt :=
  match a, w.job with
  | .call c io, none => c.attempt? ⟨w.engine, s, io⟩
  | .turn fuel, some (job, io) => Engine.turnAttempt? fuel ⟨w.engine, s, io⟩ job.next
  | _, _ => none

theorem learns_of_settle {o : Outcome Desk (Option Engine.Job)} {t? : Option Attempt}
    (h : o.Leaves (fun d => (w.books s).Learns t? d.books)) (ho : settle o = some (w', s')) :
    (w.books s).Learns t? (w'.books s') := by
  cases o with
  | done job d =>
    cases ho
    exact h
  | failed e d =>
    cases ho
    exact h
  | starved => cases ho

/-- An attempt that is made is due, and its place is not in the memo yet. -/
theorem due_of_attempt? {a : Act} {t : Attempt} (h : w.attempt? s a = some t) :
    (∃ arrival, (w.books s).due? w.engine.program w.engine.policy arrival = some t) ∧
      (w.books s).empty.contains t.entry = false := by
  have hdesk : ∀ {io : Console} {phase : Phase} {arrival : Arrival},
      Desk.attempt? ⟨w.engine, s, io⟩ phase arrival = some t →
      (∃ arrival, (w.books s).due? w.engine.program w.engine.policy arrival = some t) ∧
        (w.books s).empty.contains t.entry = false := by
    intro io phase arrival hmade
    obtain ⟨hdue, hmade⟩ := Option.filter_eq_some_iff.mp hmade
    obtain ⟨-, hnew⟩ := Bool.and_eq_true_iff.mp hmade
    exact ⟨⟨arrival, hdue⟩, (Bool.not_eq_true' _).mp hnew⟩
  unfold attempt? at h
  split at h
  · next c io hjob =>
    unfold Engine.Call.attempt? at h
    split at h
    · exact hdesk h
    · cases h
    · cases h
    · cases h
  · next fuel job io hjob =>
    unfold Engine.turnAttempt? at h
    split at h
    · exact hdesk h
    · split at h
      · obtain ⟨e, -, he⟩ := Option.bind_eq_some_iff.mp h
        unfold Engine.exitAttempt? at he
        split at he
        · exact hdesk he
        · cases he
        · cases he
        · cases he
      · cases h
    · cases h
    · cases h
    · cases h
  · cases h

/-- What a worker learns in a step. -/
theorem learns_of_step? {a : Act} (h : w.step? s a = some (w', s')) :
    (w.books s).Learns (w.attempt? s a) (w'.books s') := by
  unfold step? at h
  unfold attempt?
  split at h
  · next c io hjob =>
    rw [hjob]
    exact learns_of_settle (c.begin_learns ⟨w.engine, s, io⟩) h
  · next fuel job io hjob =>
    rw [hjob]
    exact learns_of_settle (job.lap_learns fuel ⟨w.engine, s, io⟩) h
  · cases h
    exact .nothing rfl
  · cases h

/-- An engine with a store of its own, after any calls and in the middle of one, and the
attempts to compile that it has made, the last one first. -/
inductive Journal (p : Program) (pol : Policy) : List Attempt → Worker → UnitStore → Prop where
  | new {e : Engine} (he : e.IsNew p pol) :
    Journal p pol [] (idle e) (.ofThreshold pol.megamorphicThreshold)
  | step {tries : List Attempt} {w w' : Worker} {s s' : UnitStore} {a : Act}
    (h : Journal p pol tries w s) (hs : w.step? s a = some (w', s')) :
    Journal p pol ((w.attempt? s a).toList ++ tries) w' s'

variable {p : Program} {pol : Policy} {tries : List Attempt}

theorem Journal.diary (h : Journal p pol tries w s) : ∃ log, Diary p pol log w s := by
  induction h with
  | new he => exact ⟨[], .new he⟩
  | step h hs ih =>
    obtain ⟨log, hlog⟩ := ih
    exact ⟨_, hlog.step hs⟩

/-- The journal, the worker and the store after some acts, if there is a step for each. -/
def follow : List Act → List Attempt × Worker × UnitStore → Option (List Attempt × Worker × UnitStore)
  | [], x => some x
  | a :: acts, (tries, w, s) => (w.step? s a).bind (fun y =>
      follow acts ((w.attempt? s a).toList ++ tries, y.1, y.2))

theorem Journal.after_acts {acts : List Act} {x : List Attempt × Worker × UnitStore}
    (h : Journal p pol tries w s) (hx : follow acts (tries, w, s) = some x) :
    Journal p pol x.1 x.2.1 x.2.2 := by
  induction acts generalizing tries w s with
  | nil =>
    cases hx
    exact h
  | cons a acts ih =>
    obtain ⟨⟨w', s'⟩, hs, hrest⟩ := Option.bind_eq_some_iff.mp hx
    exact ih (h.step hs) hrest

/-- The memo is an extract from the journal: a place is in it if the last attempt at the place
found nothing, and only then. -/
theorem Journal.contains_eq (h : Journal p pol tries w s) (entry : UnitEntry) :
    (w.books s).empty.contains entry = (Attempt.lastAt? tries entry).any Attempt.isEmpty := by
  induction h with
  | @new e he =>
    show e.emptyEntries.contains entry = false
    rw [he.unused.2.1]
    rfl
  | @step tries w w' s s' a h hs ih =>
    have hlearns := learns_of_step? hs
    have hnew : ∀ t, w.attempt? s a = some t → (w.books s).empty.contains t.entry = false :=
      fun t ht => (due_of_attempt? ht).2
    revert hlearns hnew
    generalize w.attempt? s a = t?
    intro hlearns hnew
    cases hlearns with
    | nothing hempty =>
      rw [hempty]
      exact ih
    | @something t b' ht hempty =>
      rw [hempty, Option.toList_some, List.singleton_append, Attempt.lastAt?_cons]
      split
      · next heq => rw [← heq, hnew t rfl, Option.any_some, ht]
      · exact ih
    | @empty t b' ht hempty hstore =>
      rw [hempty, KeySet.contains_add, Option.toList_some, List.singleton_append,
        Attempt.lastAt?_cons]
      split
      · next heq => rw [decide_eq_true heq, Bool.true_or, Option.any_some, ht]
      · next hne =>
        rw [decide_eq_false hne, Bool.false_or]
        exact ih

/-- Every attempt in the journal was due by the books of its time, and if it found nothing,
what the store had recorded by then is still recorded. -/
theorem Journal.recorded (h : Journal p pol tries w s) {t : Attempt} (ht : t ∈ tries) :
    (∃ b arrival, Books.due? p pol b arrival = some t) ∧
      (t.isEmpty = true → t.guide.store.Grows s) := by
  induction h with
  | new => cases ht
  | @step tries w w' s s' a h hs ih =>
    obtain ⟨log, hdiary⟩ := h.diary
    obtain ⟨hprogram, hpolicy⟩ := hdiary.program_eq
    obtain ⟨horderly, hfits⟩ := hdiary.orderly
    have hgrows := ((advances_of_step? hs).change.proceeds horderly hfits).grows
    rcases List.mem_append.mp ht with hnew | hold
    · have hmade := Option.mem_toList.mp hnew
      obtain ⟨⟨arrival, hdue⟩, -⟩ := due_of_attempt? hmade
      rw [hprogram, hpolicy] at hdue
      refine ⟨⟨_, arrival, hdue⟩, fun hempty => ?_⟩
      have hlearns := learns_of_step? hs
      rw [hmade] at hlearns
      cases hlearns with
      | something hfound =>
        rw [hfound] at hempty
        cases hempty
      | empty _ _ hstore =>
        have hstore : s' = t.guide.store := hstore
        exact hstore ▸ .refl s'
    · obtain ⟨hdue, hstore⟩ := ih hold
      exact ⟨hdue, fun hempty => (hstore hempty).trans hgrows⟩

end Worker

end HotPath
