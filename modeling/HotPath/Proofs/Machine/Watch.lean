/-
  HotPath.Proofs.Machine.Watch

  Segments, and those who watch them. An observer is told what the top frame passes
  while it runs, and keeps a state of its own (`Machine.watch`). It has no influence
  on the run: with every observer a segment comes to the same exit or fault and leaves
  the same console (`Machine.mapState_watch`). A segment that writes down what it passes
  and counts it in the end is one with an observer that counts (`Machine.segment_eq_watch`).

  What is passed can be told from the execution alone. Of all the instructions from the
  start of a segment to its end or its failure, those of the top frame are the ones that
  matter (`Machine.Traverses`). They are told by the segment (`Machine.Traverses.unique`),
  and what they pass is what counts (`Machine.segments_count_passes`).
-/
import HotPath.Proofs.Machine.Stack
import HotPath.Proofs.Program.Checked
import HotPath.Proofs.Unit.Counts
import HotPath.Proofs.Unit.Sound

namespace HotPath

namespace Outcome

variable {σ τ υ α : Type}

theorem mapState_mapState (x : Outcome σ α) (f : σ → τ) (g : τ → υ) :
    (x.mapState f).mapState g = x.mapState (fun s => g (f s)) := by
  cases x with
  | done a s => rfl
  | failed e s => rfl
  | starved => rfl

end Outcome

namespace Machine

variable {m : Machine} {σ : Type}

-- ============================================================================
-- Observers
-- ============================================================================

/-- Runs the top frame from a spot, and tells an observer what it passes. -/
def watchFrom (m : Machine) (see : σ → Observation → σ) : (fuel : Nat) → Spot → σ →
    Outcome (Console × σ) Exit
  | 0, _, _ => .starved
  | n + 1, s, a =>
    if m.stopsAt s.loc then .done ⟨s.loc, .mergePoint, s.frame⟩ (s.io, a)
    else
      match m.move (m.call n 1) s with
      | .on s' => watchFrom m see n s' ((m.passing? s).elim a (see a))
      | .halt o => o.mapState (fun io => (io, a))

/-- Runs a segment, and tells an observer what its top frame passes. -/
def watch (m : Machine) (see : σ → Observation → σ) (fuel : Nat) (loc : Location) (f : Frame)
    (io : Console) (a : σ) : Outcome (Console × σ) Exit :=
  match m.program.functions[loc.func]? with
  | none => .failed (.program (.unknownFunction loc.func)) (io, a)
  | some fn =>
    if f.size = fn.registers then m.watchFrom see fuel ⟨loc, f, io⟩ a
    else .failed (.program (.frameSize loc f.size fn.name fn.registers)) (io, a)

theorem foldl_note (see : σ → Observation → σ) (a : σ) (seen : Array Observation)
    (o : Option Observation) :
    (note seen o).foldl see a = o.elim (seen.foldl see a) (see (seen.foldl see a)) := by
  cases o with
  | none => rfl
  | some o => exact Array.foldl_push

/-- It makes no difference whether an observer is told at once or in the end. -/
theorem watchFrom_eq (see : σ → Observation → σ) (a : σ) (n : Nat) (s : Spot)
    (seen : Array Observation) :
    m.watchFrom see n s (seen.foldl see a) =
      (m.walk n 0 m.stopsAt s.loc.func ⟨s.loc.pc, s.frame, ⟨s.io, seen⟩⟩).mapState
        (fun t => (t.io, t.seen.foldl see a)) := by
  induction n generalizing s seen with
  | zero => rfl
  | succ n ih =>
    rw [watchFrom]
    by_cases hs : m.stopsAt s.loc = true
    · have hsome := Program.isSome_instr?_of_isDispatchPoint hs
      obtain ⟨i, hi⟩ := Option.isSome_iff_exists.mp hsome
      rw [if_pos hs, m.walk_succ, hi]
      dsimp only
      rw [if_pos hs]
      rfl
    · rw [if_neg hs, walk_move n 0 (Bool.eq_false_iff.mpr hs), calleeAt_zero]
      cases m.move (m.call n 1) s with
      | on s' =>
        dsimp only
        rw [← foldl_note, ih]
      | halt o =>
        dsimp only
        rw [Outcome.mapState_mapState]

theorem watch_eq (see : σ → Observation → σ) (n : Nat) (loc : Location) (f : Frame) (io : Console)
    (a : σ) :
    m.watch see n loc f io a =
      (m.resume n loc f io).mapState (fun t => (t.io, t.seen.foldl see a)) := by
  unfold watch resume
  cases m.program.functions[loc.func]? with
  | none => rfl
  | some fn =>
    dsimp only
    split
    · exact watchFrom_eq see a n ⟨loc, f, io⟩ #[]
    · rfl

/-- No observer has an influence on what it observes. -/
theorem mapState_watch (see : σ → Observation → σ) (n : Nat) (loc : Location) (f : Frame)
    (io : Console) (a : σ) :
    (m.watch see n loc f io a).mapState Prod.fst = (m.resume n loc f io).mapState Track.io := by
  rw [watch_eq, Outcome.mapState_mapState]

/-- The observer that counts. -/
def tally (q : Heat × UnitStore) (o : Observation) : Heat × UnitStore := q.1.record q.2 o

theorem segment_eq (n : Nat) (loc : Location) (f : Frame) (p : Profile) :
    m.segment n loc f p = (m.resume n loc f p.io).mapState p.absorb := by
  unfold segment
  cases m.resume n loc f p.io with
  | done e t => rfl
  | failed e t => rfl
  | starved => rfl

/-- A segment is watched by an observer that counts, inside of a window of its own. -/
theorem segment_eq_watch (n : Nat) (loc : Location) (f : Frame) (p : Profile) :
    m.segment n loc f p = (m.watch tally n loc f p.io (p.heat.beginSegment, p.store)).mapState
      (fun t => ⟨t.1, t.2.1.endSegment, t.2.2⟩) := by
  rw [segment_eq, watch_eq, Outcome.mapState_mapState]
  rfl

-- ============================================================================
-- What the top frame executes
-- ============================================================================

/-- The instructions that the top frame of a segment executes until the segment ends, or
until an instruction fails, its own or one of a function that it calls. -/
inductive Traverses (m : Machine) (loc : Location) (f : Frame) (io : Console) :
    List Spot → Outcome Console Exit → Prop where
  /-- A frame that is none of the function is refused. -/
  | refused {fault : Fault} (hf : ¬ f.IsFor m.program loc) :
    Traverses m loc f io [] (.failed fault io)
  | ends {ss : List Spot} {e : Exit} {io' : Console} (hf : f.IsFor m.program loc)
    (h : m.Runs [] ⟨⟨loc, f, io⟩, []⟩ ss ⟨⟨e.loc, e.frame, io'⟩, []⟩) (he : e.EndsWalk m m.stopsAt)
    (hfree : ∀ s ∈ ss, m.stopsAt s.loc = false) : Traverses m loc f io ss (.done e io')
  | fails {ss : List Spot} {y : Execution} {fault : Fault} {io' : Console}
    (hf : f.IsFor m.program loc) (h : m.Runs [] ⟨⟨loc, f, io⟩, []⟩ ss y)
    (hy : m.stride y = .halt (.failed fault io')) (hfree : ∀ s ∈ ss, m.stopsAt s.loc = false) :
    Traverses m loc f io ss (.failed fault io')

/-- From the end of a segment, the top frame executes nothing more before it stops. -/
theorem Runs.of_endsWalk {e : Exit} {io : Console} {ts : List Spot} {y : Execution}
    (he : e.EndsWalk m m.stopsAt) (h : m.Runs [] ⟨⟨e.loc, e.frame, io⟩, []⟩ ts y)
    (hfree : ∀ s ∈ ts, m.stopsAt s.loc = false) : ts = [] := by
  obtain ⟨loc, kind, f⟩ := e
  cases kind with
  | promotion reg => exact he.elim
  | fallback => exact he.elim
  | returned v =>
    obtain ⟨src, hret, -⟩ := he
    exact h.of_halt (stride_ret hret [])
  | mergePoint =>
    rcases h.head with ⟨hts, -⟩ | ⟨z, us, -, -, rfl⟩
    · exact hts
    · have hstop : m.stopsAt loc = false := hfree ⟨loc, f, io⟩ List.mem_cons_self
      rw [show m.stopsAt loc = true from he] at hstop
      cases hstop

/-- A segment has one way only. -/
theorem Traverses.unique {loc : Location} {f : Frame} {io : Console} {ss ss' : List Spot}
    {o : Outcome Console Exit} (h : m.Traverses loc f io ss o) (h' : m.Traverses loc f io ss' o) :
    ss' = ss := by
  cases h with
  | refused hf =>
    cases h' with
    | refused => rfl
    | fails hf' => exact absurd hf' hf
  | ends _ hruns he hfree =>
    cases h' with
    | ends _ hruns' _ hfree' =>
      rcases hruns.linear hruns' with ⟨ts, hts, rfl⟩ | ⟨ts, hts, rfl⟩
      · rw [hts.of_endsWalk he (fun s hs => hfree' s (List.mem_append_right _ hs)), List.append_nil]
      · rw [hts.of_endsWalk he (fun s hs => hfree s (List.mem_append_right _ hs)), List.append_nil]
  | fails hf hruns hy =>
    cases h' with
    | refused hf' => exact absurd hf hf'
    | fails _ hruns' hy' =>
      rcases hruns.linear hruns' with ⟨ts, hts, rfl⟩ | ⟨ts, hts, rfl⟩
      · rw [hts.of_halt hy, List.append_nil]
      · rw [hts.of_halt hy', List.append_nil]

/-- What a segment has observed is what its top frame passed. -/
theorem traverses_resume (n : Nat) (loc : Location) (f : Frame) (io : Console) :
    (m.resume n loc f io).Meets
      (fun e t => ∃ ss, m.Traverses loc f io ss (.done e t.io) ∧
        t.seen.toList = ss.filterMap m.passing?)
      (fun fault t => ∃ ss, m.Traverses loc f io ss (.failed fault t.io) ∧
        t.seen.toList = ss.filterMap m.passing?)
      True := by
  unfold resume
  cases hfn : m.program.functions[loc.func]? with
  | none =>
    refine ⟨[], .refused (fun hf => ?_), rfl⟩
    obtain ⟨fn, hfn', -⟩ := hf
    rw [hfn] at hfn'
    cases hfn'
  | some fn =>
    dsimp only
    split
    · next hsize =>
      have hf : f.IsFor m.program loc := ⟨fn, hfn, hsize⟩
      refine Outcome.Meets.imp (executes_walk n m.stopsAt ⟨loc, f, io⟩ [] #[]) ?_ ?_ id
      · rintro e t ⟨ss, hruns, hends, hss⟩
        exact ⟨ss, .ends hf hruns hends hss.free, hss.seen_eq⟩
      · rintro fault t ⟨ss, y, hruns, hfails, hss⟩
        exact ⟨ss, .fails hf hruns hfails hss.free, hss.seen_eq⟩
    · next hsize =>
      refine ⟨[], .refused (fun hf => hsize ?_), rfl⟩
      obtain ⟨fn', hfn', hsize'⟩ := hf
      rw [hfn] at hfn'
      cases hfn'
      exact hsize'

-- ============================================================================
-- What counts
-- ============================================================================

/-- The instructions that a segment executes in its top frame are all that it adds to the
counters. -/
def CountsAlong (m : Machine) (loc : Location) (f : Frame) (p p' : Profile)
    (o : Outcome Console Exit) : Prop :=
  (∃ ss, m.Traverses loc f p.io ss o) ∧
    ∀ ss, m.Traverses loc f p.io ss o → Heat.Adds (ss.filterMap m.passing?) p.heat p'.heat

theorem countsAlong_absorb {p : Profile} {loc : Location} {f : Frame}
    {o : Outcome Console Exit} {t : Track} (hmade : p.heat.Made)
    (h : ∃ ss, m.Traverses loc f p.io ss o ∧ t.seen.toList = ss.filterMap m.passing?) :
    m.CountsAlong loc f p (p.absorb t) o := by
  obtain ⟨ss, hss, hseen⟩ := h
  refine ⟨⟨ss, hss⟩, fun ss' hss' => ?_⟩
  rw [hss.unique hss', ← hseen]
  exact Heat.adds_recordSegment hmade p.store t.seen

/-- Segments count exactly what their top frame passes, and counting has no influence on
them. A segment is one that is watched by an observer that counts, and comes to the same
exit or fault on the same console as with an observer that does nothing. What it adds to
the counters, also if it fails, is what the instructions of its top frame pass; those of
callees add nothing. -/
theorem segments_count_passes {p : Profile} (hmade : p.heat.Made) (n : Nat) (loc : Location)
    (f : Frame) :
    m.segment n loc f p = (m.watch tally n loc f p.io (p.heat.beginSegment, p.store)).mapState
      (fun t => ⟨t.1, t.2.1.endSegment, t.2.2⟩) ∧
    (m.segment n loc f p).mapState Profile.io =
      (m.watch (fun a _ => a) n loc f p.io ()).mapState Prod.fst ∧
    (m.segment n loc f p).Meets (fun e p' => m.CountsAlong loc f p p' (.done e p'.io))
      (fun fault p' => m.CountsAlong loc f p p' (.failed fault p'.io)) True := by
  refine ⟨segment_eq_watch n loc f p, ?_, ?_⟩
  · rw [mapState_watch, segment_eq, Outcome.mapState_mapState]
    rfl
  · have htraverses := m.traverses_resume n loc f p.io
    rw [segment_eq]
    cases hr : m.resume n loc f p.io with
    | starved => trivial
    | done e t =>
      rw [hr] at htraverses
      exact countsAlong_absorb hmade htraverses
    | failed fault t =>
      rw [hr] at htraverses
      exact countsAlong_absorb hmade htraverses

/-- Goes around three times, promotes a number and has it looked at, and then divides by
zero. -/
def circling : Function :=
  { name := "circling", registers := 2,
    code := #[.const 0 (.int 3), .promote 0, .call 1 1 [0], .const 1 (.int 1), .binary .sub 0 0 1,
      .branch 0 7 none, .jump 1, .binary .div 0 1 0, .ret 0] }

/-- Looks at a number. -/
def looking : Function :=
  { name := "looking", params := 1, registers := 1,
    code := #[.promote 0, .branch 0 2 none, .ret 0] }

/-- An interpreter for the two. -/
def circlingMachine : Machine :=
  { program :=
      { functions := #[circling, looking], entry := 0, facts := .ofFunctions #[circling, looking],
        faultless := by decide, facts_eq := rfl } }

/-- The segment fails after three rounds. The third value turns the site generic, and what
the callee passes is nowhere to be found. With de-duplication, both arms of the split count
once. -/
theorem segments_count_passes_circling :
    (∃ p' ss, circlingMachine.segment 40 ⟨0, 0⟩ (Frame.blank 2) ⟨{}, {}, .ofThreshold 2⟩ =
        .failed (.runtime .divisionByZero) p' ∧
      circlingMachine.Traverses ⟨0, 0⟩ (Frame.blank 2) {} ss
        (.failed (.runtime .divisionByZero) p'.io) ∧
      (ss.filterMap circlingMachine.passing?).count (.split ⟨0, 5⟩ true) = 2 ∧
      (ss.filterMap circlingMachine.passing?).countP (Observation.isAt ⟨0, 1⟩) = 3 ∧
      p'.heat.count (.generic ⟨0, 1⟩) = 1 ∧
      p'.heat.count (.split ⟨1, 1⟩ true) = 0) ∧
    ∃ p' ss, circlingMachine.segment 40 ⟨0, 0⟩ (Frame.blank 2)
        ⟨{}, { dedup := true }, .ofThreshold 2⟩ = .failed (.runtime .divisionByZero) p' ∧
      circlingMachine.Traverses ⟨0, 0⟩ (Frame.blank 2) {} ss
        (.failed (.runtime .divisionByZero) p'.io) ∧
      .split ⟨0, 5⟩ true ∈ ss.filterMap circlingMachine.passing? ∧
      p'.heat.count (.split ⟨0, 5⟩ true) = 1 := by
  have hmade : ∀ dedup, Heat.Made { dedup } := fun _ => .empty rfl rfl
  constructor
  · have hcounts := (segments_count_passes (m := circlingMachine) (p := ⟨{}, {}, .ofThreshold 2⟩)
      (hmade false) 40 ⟨0, 0⟩ (Frame.blank 2)).2.2
    obtain ⟨p', hrun, htwo, hthree, hgeneric, hcallee, hkeys⟩ :
        ∃ p', circlingMachine.segment 40 ⟨0, 0⟩ (Frame.blank 2) ⟨{}, {}, .ofThreshold 2⟩ =
            .failed (.runtime .divisionByZero) p' ∧
          p'.heat.count (.split ⟨0, 5⟩ true) = 2 ∧ p'.heat.shownAt ⟨0, 1⟩ = 3 ∧
          p'.heat.count (.generic ⟨0, 1⟩) = 1 ∧ p'.heat.count (.split ⟨1, 1⟩ true) = 0 ∧
          ∀ k ∈ p'.heat.counts.keys, p'.heat.count k < Word.max := by
      refine ⟨_, rfl, ?_, ?_, ?_, ?_, ?_⟩ <;> decide +kernel
    rw [hrun] at hcounts
    obtain ⟨⟨ss, hss⟩, hcounts⟩ := hcounts
    have hadds := hcounts ss hss
    have hbelow := Heat.unsaturated_of_keys hkeys
    have hsplit := hadds.split_count rfl hbelow ⟨0, 5⟩ true
    have hsite := hadds.shownAt_eq rfl hbelow ⟨0, 1⟩
    rw [htwo] at hsplit
    rw [hthree] at hsite
    refine ⟨p', ss, hrun, hss, ?_, ?_, hgeneric, hcallee⟩
    · exact (hsplit.trans (Nat.zero_add _)).symm
    · exact (hsite.trans (Nat.zero_add _)).symm
  · have hcounts := (segments_count_passes (m := circlingMachine)
      (p := ⟨{}, { dedup := true }, .ofThreshold 2⟩)
      (hmade true) 40 ⟨0, 0⟩ (Frame.blank 2)).2.2
    obtain ⟨p', hrun, hone, hkeys⟩ :
        ∃ p', circlingMachine.segment 40 ⟨0, 0⟩ (Frame.blank 2)
            ⟨{}, { dedup := true }, .ofThreshold 2⟩ = .failed (.runtime .divisionByZero) p' ∧
          p'.heat.count (.split ⟨0, 5⟩ true) = 1 ∧
          ∀ k ∈ p'.heat.counts.keys, p'.heat.count k < Word.max := by
      refine ⟨_, rfl, ?_, ?_⟩ <;> decide +kernel
    rw [hrun] at hcounts
    obtain ⟨⟨ss, hss⟩, hcounts⟩ := hcounts
    have honce := (hcounts ss hss).split_once rfl (Heat.unsaturated_of_keys hkeys) ⟨0, 5⟩ true
    rw [hone] at honce
    refine ⟨p', ss, hrun, hss, ?_, hone⟩
    by_contra hmem
    rw [if_neg hmem] at honce
    cases honce

end Machine

end HotPath
