/-
  HotPath.Proofs.Machine.Stack

  Whole executions, one instruction at a time. Walks run a callee to its end
  before they go on; here a call is an instruction like any other, which leaves
  its caller waiting on a stack. `Machine.stride` is one instruction of such an
  execution and `Machine.after` any number of them, so that there is an answer to
  what the console holds after so many instructions.

  Walks are executions: a walk that is done has come to the place where it ends,
  and one that fails has come to an instruction that fails
  (`Machine.strides_walkAt`), in whatever frame that is. Of all instructions on the
  way, those of the frame itself are the ones that it observes
  (`Machine.executes_walk`). What executions print is never taken back
  (`Machine.printed_after`).
-/
import HotPath.Proofs.Machine.Reach

namespace HotPath

-- ============================================================================
-- What a frame returns
-- ============================================================================

/-- The result of a frame, from its exit. -/
def Exit.result (e : Exit) : Except Fault Value :=
  match e.value? with
  | some v => .ok v
  | none => .error (.program (.noReturn e.loc))

namespace Outcome

variable {σ α : Type}

/-- The fault of an outcome, if it has one. -/
def fault? : Outcome σ α → Option Fault
  | .done _ _ => none
  | .failed x _ => some x
  | .starved => none

/-- The outcome with a result and what was left. -/
def ofResult (r : Except Fault α) (s : σ) : Outcome σ α :=
  match r with
  | .ok a => .done a s
  | .error e => .failed e s

/-- An outcome tells its result and what was left. -/
theorem ofResult_inj {r r' : Except Fault α} {s s' : σ} (h : ofResult r s = ofResult r' s') :
    r = r' ∧ s = s' := by
  cases r with
  | ok a =>
    cases r' with
    | ok b =>
      obtain ⟨rfl, rfl⟩ := Outcome.done.inj h
      exact ⟨rfl, rfl⟩
    | error x => cases h
  | error x =>
    cases r' with
    | ok b => cases h
    | error y =>
      obtain ⟨rfl, rfl⟩ := Outcome.failed.inj h
      exact ⟨rfl, rfl⟩

theorem ofResult_ne_starved (r : Except Fault α) (s : σ) : ofResult r s ≠ .starved := by
  cases r with
  | ok a => exact nofun
  | error x => exact nofun

/-- The outcome of a call or of a whole program, from how its frame ended. -/
def returned : Outcome σ Exit → Outcome σ Value
  | .done e s => ofResult e.result s
  | .failed e s => .failed e s
  | .starved => .starved

theorem returned_eq_starved {x : Outcome σ Exit} : x.returned = .starved ↔ x = .starved := by
  cases x with
  | done e s => exact ⟨fun h => absurd h (ofResult_ne_starved _ _), nofun⟩
  | failed e s => exact ⟨nofun, nofun⟩
  | starved => exact ⟨fun _ => rfl, fun _ => rfl⟩

theorem mapState_returned {τ : Type} (x : Outcome σ Exit) (f : σ → τ) :
    x.returned.mapState f = (x.mapState f).returned := by
  cases x with
  | done e s =>
    simp only [returned, mapState]
    cases e.result with
    | ok v => rfl
    | error x => rfl
  | failed e s => rfl
  | starved => rfl

end Outcome

-- ============================================================================
-- Executions
-- ============================================================================

/-- A frame that waits for a call to return. -/
structure Caller where
  /-- The address of the call. -/
  loc : Location
  frame : Frame
  /-- The register for the result. -/
  dst : Reg
  /-- Whether the result is tainted. -/
  tainted : Bool

/-- Where a caller goes on once the call has returned a value. -/
def Caller.resume (c : Caller) (v : Value) (io : Console) : Spot :=
  ⟨c.loc.after, c.frame.set c.dst v c.tainted, io⟩

/-- Where the innermost frame of an execution stands, and the frames that wait for
it, from the inside out. -/
structure Execution where
  spot : Spot
  callers : List Caller := []

/-- What an instruction does to an execution. -/
inductive Stride where
  | on (next : Execution)
  /-- The outermost frame returned, or an instruction failed. -/
  | halt (outcome : Outcome Console Exit)

/-- A frame of an execution moves. A return goes to the caller, if there is one. -/
def Execution.follow (callers : List Caller) : Move → Stride
  | .on s => .on ⟨s, callers⟩
  | .halt (.done e io) =>
    match callers, e.value? with
    | c :: cs, some v => .on ⟨c.resume v io, cs⟩
    | _, _ => .halt (.done e io)
  | .halt o => .halt o

/-- A walk of a frame ends where it has to stop, or with a return. -/
def Exit.EndsWalk (m : Machine) (stop : Location → Bool) (e : Exit) : Prop :=
  match e.kind with
  | .mergePoint => stop e.loc = true
  | .returned v => ∃ src, m.program.instr? e.loc = some (.ret src) ∧ e.frame.get src = v
  | .promotion _ => False
  | .fallback => False

/-- A walk that nothing stops ends with a return. -/
theorem Exit.EndsWalk.eq_returned {m : Machine} {e : Exit} (h : e.EndsWalk m (fun _ => false)) :
    ∃ src, m.program.instr? e.loc = some (.ret src) ∧
      e = ⟨e.loc, .returned (e.frame.get src), e.frame⟩ := by
  obtain ⟨loc, kind, f⟩ := e
  cases kind with
  | mergePoint => cases h
  | promotion reg => exact h.elim
  | fallback => exact h.elim
  | returned v =>
    obtain ⟨src, hret, hv⟩ := h
    have hv : f.get src = v := hv
    exact ⟨src, hret, by rw [← hv]⟩

namespace Machine

/-- Starts a call from an execution, which then waits for it. -/
def startCall (m : Machine) (x : Execution) (dst : Reg) (func : FuncId) (args : List Reg) :
    Stride :=
  match Word.next? x.callers.length with
  | none => .halt (.failed .overflow x.spot.io)
  | some depth =>
    if m.maxCallDepth < depth then
      .halt (.failed (.runtime (.callDepth m.maxCallDepth)) x.spot.io)
    else match m.program.functions[func]? with
      | none => .halt (.failed (.program (.unknownFunction func)) x.spot.io)
      | some fn =>
        let tainted := m.program.hasEffects func || args.any x.spot.frame.isTainted
        .on ⟨⟨⟨func, 0⟩, Frame.ofArgs fn.registers (args.map x.spot.frame.get), x.spot.io⟩,
          ⟨x.spot.loc, x.spot.frame, dst, tainted⟩ :: x.callers⟩

/-- Nothing is called at once. -/
def noCallee : Callee := fun _ _ _ => .starved

/-- One instruction of an execution. -/
def stride (m : Machine) (x : Execution) : Stride :=
  match m.program.instr? x.spot.loc with
  | some (.call dst func args) =>
    if m.capabilities.has .call then m.startCall x dst func args
    else .halt (.failed (.gap .call x.spot.loc) x.spot.io)
  | _ => Execution.follow x.callers (m.move noCallee x.spot)

/-- An execution after a number of instructions, if it has not ended by then. -/
def after (m : Machine) : Nat → Execution → Option Execution
  | 0, x => some x
  | n + 1, x =>
    match m.stride x with
    | .on y => m.after n y
    | .halt _ => none

/-- An execution comes to another one. -/
def Gets (m : Machine) (x y : Execution) : Prop := ∃ n, m.after n x = some y

variable {m : Machine} {x y z : Execution} {s s' : Spot} {cs : List Caller}

theorem after_succ_of_on (h : m.stride x = .on y) (n : Nat) : m.after (n + 1) x = m.after n y := by
  rw [after, h]

theorem after_succ_of_halt {o : Outcome Console Exit} (h : m.stride x = .halt o) (n : Nat) :
    m.after (n + 1) x = none := by
  rw [after, h]

theorem after_add (n k : Nat) (x : Execution) :
    m.after (n + k) x = (m.after n x).bind (m.after k) := by
  induction n generalizing x with
  | zero => rw [Nat.zero_add, after, Option.bind_some]
  | succ n ih =>
    rw [Nat.succ_add]
    cases hx : m.stride x with
    | on y => rw [after_succ_of_on hx, after_succ_of_on hx, ih]
    | halt o => rw [after_succ_of_halt hx, after_succ_of_halt hx, Option.bind_none]

theorem Gets.refl (x : Execution) : m.Gets x x := ⟨0, rfl⟩

theorem Gets.of_stride (h : m.stride x = .on y) : m.Gets x y := ⟨1, after_succ_of_on h 0⟩

theorem Gets.trans (h : m.Gets x y) (h' : m.Gets y z) : m.Gets x z := by
  obtain ⟨n, hn⟩ := h
  obtain ⟨k, hk⟩ := h'
  refine ⟨n + k, ?_⟩
  rw [after_add, hn, Option.bind_some, hk]

/-- What every instruction keeps, executions keep. -/
theorem Gets.keeps {P : Execution → Prop} (hstep : ∀ {y z}, m.stride y = .on z → P y → P z)
    (h : m.Gets x y) (hx : P x) : P y := by
  obtain ⟨n, hn⟩ := h
  induction n generalizing x with
  | zero =>
    cases hn
    exact hx
  | succ n ih =>
    cases hs : m.stride x with
    | on z =>
      rw [after_succ_of_on hs] at hn
      exact ih (hstep hs hx) hn
    | halt o =>
      rw [after_succ_of_halt hs] at hn
      cases hn

/-- An execution that ends later is never past its end. -/
theorem after_le_of_halt {n k : Nat} {o : Outcome Console Exit} (hy : m.after n x = some y)
    (hz : m.after k x = some z) (ho : m.stride z = .halt o) : n ≤ k := by
  refine Nat.le_of_not_lt (fun hlt => ?_)
  obtain ⟨d, rfl⟩ := Nat.exists_eq_add_of_lt hlt
  rw [Nat.add_assoc, after_add, hz, Option.bind_some, after_succ_of_halt ho] at hy
  cases hy

/-- An execution comes to another one and never leaves the frame that `cs` wait for. The
spots are those where this frame executes an instruction, in order. All other instructions
are those of frames that it calls. -/
inductive Runs (m : Machine) (cs : List Caller) : Execution → List Spot → Execution → Prop where
  | refl (x : Execution) : Runs m cs x [] x
  | own {s : Spot} {ss : List Spot} {y z : Execution} (h : m.stride ⟨s, cs⟩ = .on y)
    (hrest : Runs m cs y ss z) : Runs m cs ⟨s, cs⟩ (s :: ss) z
  | callee {s : Spot} {ss : List Spot} {inner : List Caller} {c : Caller} {y z : Execution}
    (h : m.stride ⟨s, inner ++ c :: cs⟩ = .on y) (hrest : Runs m cs y ss z) :
    Runs m cs ⟨s, inner ++ c :: cs⟩ ss z

theorem Runs.trans {ss ts : List Spot} (h : m.Runs cs x ss y) (h' : m.Runs cs y ts z) :
    m.Runs cs x (ss ++ ts) z := by
  induction h with
  | refl => exact h'
  | own hs _ ih => exact .own hs (ih h')
  | callee hs _ ih => exact .callee hs (ih h')

theorem Runs.gets {ss : List Spot} (h : m.Runs cs x ss y) : m.Gets x y := by
  induction h with
  | refl x => exact .refl x
  | own hs _ ih => exact Gets.trans (.of_stride hs) ih
  | callee hs _ ih => exact Gets.trans (.of_stride hs) ih

theorem Runs.in_callee {c : Caller} {ss : List Spot} (h : m.stride ⟨s, c :: cs⟩ = .on y)
    (hrest : m.Runs cs y ss z) : m.Runs cs ⟨s, c :: cs⟩ ss z :=
  @Runs.callee m cs s ss [] c y z h hrest

/-- What a frame does is nothing that its caller executes. -/
theorem Runs.of_callee {c : Caller} {ss : List Spot} (h : m.Runs (c :: cs) x ss y) :
    m.Runs cs x [] y := by
  induction h with
  | refl x => exact .refl x
  | own hs _ ih => exact .in_callee hs ih
  | @callee s _ inner d _ _ hs _ ih =>
    have hinner : inner ++ d :: c :: cs = (inner ++ [d]) ++ c :: cs := by simp
    rw [hinner] at hs ⊢
    exact .callee hs ih

/-- More callers wait for a callee than for the frame that called it. -/
theorem length_callers_ne (inner : List Caller) (c : Caller) (cs : List Caller) :
    (inner ++ c :: cs).length ≠ cs.length := by
  rw [List.length_append, List.length_cons]
  omega

/-- The first instruction of a run, if there is one. -/
theorem Runs.head {ss : List Spot} (h : m.Runs cs x ss z) :
    (ss = [] ∧ z = x) ∨ ∃ y ts, m.stride x = .on y ∧ m.Runs cs y ts z ∧
      ss = (if x.callers.length = cs.length then [x.spot] else []) ++ ts := by
  cases h with
  | refl => exact Or.inl ⟨rfl, rfl⟩
  | own hs hrest =>
    refine Or.inr ⟨_, _, hs, hrest, ?_⟩
    rw [if_pos rfl]
    rfl
  | @callee s _ inner c _ _ hs hrest =>
    refine Or.inr ⟨_, _, hs, hrest, ?_⟩
    rw [if_neg (length_callers_ne inner c cs)]
    rfl

theorem Runs.of_halt {ss : List Spot} {o : Outcome Console Exit} (h : m.Runs cs x ss y)
    (hx : m.stride x = .halt o) : ss = [] := by
  rcases h.head with ⟨hss, -⟩ | ⟨z, ts, hs, -, -⟩
  · exact hss
  · rw [hx] at hs
    cases hs

/-- There is only one way for an execution to go: of two runs, one goes on from the
other. -/
theorem Runs.linear {ss ss' : List Spot} {y' : Execution} (h : m.Runs cs x ss y)
    (h' : m.Runs cs x ss' y') :
    (∃ ts, m.Runs cs y ts y' ∧ ss' = ss ++ ts) ∨ ∃ ts, m.Runs cs y' ts y ∧ ss = ss' ++ ts := by
  induction h generalizing ss' with
  | refl x => exact Or.inl ⟨ss', h', rfl⟩
  | @own s ss _ _ hs hrest ih =>
    rcases h'.head with ⟨rfl, rfl⟩ | ⟨z, ts, hs', hrest', rfl⟩
    · exact Or.inr ⟨s :: ss, .own hs hrest, rfl⟩
    · rw [hs] at hs'
      cases hs'
      rw [if_pos rfl]
      rcases ih hrest' with ⟨us, hus, rfl⟩ | ⟨us, hus, rfl⟩
      · exact Or.inl ⟨us, hus, rfl⟩
      · exact Or.inr ⟨us, hus, rfl⟩
  | @callee s ss inner c _ _ hs hrest ih =>
    rcases h'.head with ⟨rfl, rfl⟩ | ⟨z, ts, hs', hrest', rfl⟩
    · exact Or.inr ⟨ss, .callee hs hrest, rfl⟩
    · rw [hs] at hs'
      cases hs'
      rw [if_neg (length_callers_ne inner c cs)]
      exact ih hrest'

-- ============================================================================
-- Walks are executions
-- ============================================================================

/-- Only calls depend on how calls are made. -/
theorem move_eq_noCallee (hcall : ∀ dst func args, m.program.instr? s.loc ≠ some (.call dst func args))
    (call : Callee) : m.move call s = m.move noCallee s := by
  unfold move
  cases hi : m.program.instr? s.loc with
  | none => rfl
  | some i =>
    cases i with
    | call dst func args => exact absurd hi (hcall dst func args)
    | _ => rfl

theorem stride_eq_follow (hcall : ∀ dst func args, m.program.instr? s.loc ≠ some (.call dst func args))
    (call : Callee) : m.stride ⟨s, cs⟩ = Execution.follow cs (m.move call s) := by
  rw [move_eq_noCallee hcall]
  unfold stride
  split
  · next dst func args hi => exact absurd hi (hcall dst func args)
  · rfl

/-- An instruction leads into a call, on in its frame, or back to the caller. -/
theorem stride_eq_on (h : m.stride x = .on y) :
    (∃ dst func args, m.program.instr? x.spot.loc = some (.call dst func args) ∧
      m.startCall x dst func args = .on y) ∨
    (∃ s, m.move noCallee x.spot = .on s ∧ y = ⟨s, x.callers⟩) ∨
    ∃ c cs v io, x.callers = c :: cs ∧ y = ⟨c.resume v io, cs⟩ := by
  unfold stride at h
  split at h
  · next dst func args hi =>
    split at h
    · exact Or.inl ⟨dst, func, args, hi, h⟩
    · cases h
  · cases hm : m.move noCallee x.spot with
    | on s =>
      rw [hm] at h
      cases h
      exact Or.inr (Or.inl ⟨s, rfl, rfl⟩)
    | halt o =>
      rw [hm] at h
      cases o with
      | failed fault io => cases h
      | starved => cases h
      | done e io =>
        simp only [Execution.follow] at h
        split at h
        · next c cs v hcs hv =>
          cases h
          exact Or.inr (Or.inr ⟨c, cs, v, io, hcs, rfl⟩)
        · cases h

/-- An instruction fails at once, or because it cannot start a call. -/
theorem stride_eq_failed {fault : Fault} {io : Console}
    (h : m.stride x = .halt (.failed fault io)) :
    (∃ dst func args, m.program.instr? x.spot.loc = some (.call dst func args) ∧
      (m.capabilities.has .call = true →
        m.startCall x dst func args = .halt (.failed fault io))) ∨
    m.move noCallee x.spot = .halt (.failed fault io) := by
  unfold stride at h
  split at h
  · next dst func args hi =>
    refine Or.inl ⟨dst, func, args, hi, fun hcan => ?_⟩
    rwa [if_pos hcan] at h
  · cases hm : m.move noCallee x.spot with
    | on s =>
      rw [hm] at h
      cases h
    | halt o =>
      rw [hm] at h
      cases o with
      | failed fault' io' =>
        cases h
        exact Or.inr rfl
      | starved => cases h
      | done e io' =>
        simp only [Execution.follow] at h
        split at h <;> cases h

/-- A return goes to the innermost caller, if there is one. -/
theorem stride_ret {src : Reg} (hi : m.program.instr? s.loc = some (.ret src)) (cs : List Caller) :
    m.stride ⟨s, cs⟩ =
      Execution.follow cs (.halt (.done ⟨s.loc, .returned (s.frame.get src), s.frame⟩ s.io)) := by
  have hcall : ∀ dst func args, m.program.instr? s.loc ≠ some (.call dst func args) := by
    rw [hi]
    exact nofun
  rw [stride_eq_follow hcall noCallee, move_of_instr hi]
  rfl

/-- Where an execution has come to, by the outcome of one of its frames: to the
place where the frame ends, or to an instruction that fails. -/
def Strides (m : Machine) (stop : Location → Bool) (x : Execution) (o : Outcome Console Exit) :
    Prop :=
  o.Meets (fun e io => m.Gets x ⟨⟨e.loc, e.frame, io⟩, x.callers⟩ ∧ e.EndsWalk m stop)
    (fun fault io => ∃ y, m.Gets x y ∧ m.stride y = .halt (.failed fault io)) True

/-- A call either fails at once or enters a frame, whose result is that of the call. -/
theorem startCall_cases (m : Machine) (x : Execution) (dst : Reg) (func : FuncId)
    (args : List Reg) :
    (∃ fault, m.startCall x dst func args = .halt (.failed fault x.spot.io) ∧
      (∀ c loc, fault ≠ .gap c loc) ∧
      ∀ n, m.calleeAt n x.callers.length func (args.map x.spot.frame.get) x.spot.io =
        .failed fault x.spot.io) ∨
    ∃ s, m.startCall x dst func args = .on ⟨s, ⟨x.spot.loc, x.spot.frame, dst,
        m.program.hasEffects func || args.any x.spot.frame.isTainted⟩ :: x.callers⟩ ∧
      s.io = x.spot.io ∧
      ∀ n, m.calleeAt n x.callers.length func (args.map x.spot.frame.get) x.spot.io =
        (m.walkAt n (x.callers.length + 1) (fun _ => false) s).returned := by
  unfold startCall calleeAt enter
  cases hd : Word.next? x.callers.length with
  | none => exact Or.inl ⟨_, rfl, (fun _ _ h => by cases h), fun _ => rfl⟩
  | some depth =>
    have hdepth : depth = x.callers.length + 1 := by
      unfold Word.next? at hd
      split at hd
      · exact (Option.some.inj hd).symm
      · cases hd
    dsimp only
    by_cases hdeep : m.maxCallDepth < depth
    · simp only [if_pos hdeep]
      exact Or.inl ⟨_, rfl, (fun _ _ h => by cases h), fun _ => rfl⟩
    · simp only [if_neg hdeep]
      cases m.program.functions[func]? with
      | none => exact Or.inl ⟨_, rfl, (fun _ _ h => by cases h), fun _ => rfl⟩
      | some fn =>
        refine Or.inr ⟨_, rfl, rfl, fun n => ?_⟩
        unfold walkAt
        rw [hdepth]
        dsimp only
        cases m.walk n (x.callers.length + 1) (fun _ => false) func
            ⟨0, Frame.ofArgs fn.registers (args.map x.spot.frame.get), ⟨x.spot.io, #[]⟩⟩ with
        | starved => rfl
        | failed fault t => rfl
        | done e t =>
          obtain ⟨loc, kind, f⟩ := e
          cases kind with
          | returned v => rfl
          | mergePoint | promotion | fallback => rfl

/-- A call that is not too deep walks the frame of its function. -/
theorem call_eq_returned {n depth : Nat} {func : FuncId} {fn : Function}
    (hdepth : depth ≤ m.maxCallDepth) (hfn : m.program.functions[func]? = some fn)
    (args : List Value) (io : Console) :
    m.call n depth func args io =
      (m.walkAt n depth (fun _ => false) ⟨⟨func, 0⟩, Frame.ofArgs fn.registers args, io⟩).returned := by
  simp only [call, enter, if_neg (Nat.not_lt.mpr hdepth), hfn, walkAt]
  cases m.walk n depth (fun _ => false) func ⟨0, Frame.ofArgs fn.registers args, ⟨io, #[]⟩⟩ with
  | starved => rfl
  | failed fault t => rfl
  | done e t =>
    obtain ⟨loc, kind, f⟩ := e
    cases kind with
    | returned v => rfl
    | mergePoint | promotion | fallback => rfl

/-- The frame has executed these instructions, none of them where it has to stop, and has
observed what it passed with them. -/
structure Observes (m : Machine) (stop : Location → Bool) (ss : List Spot)
    (seen seen' : Array Observation) : Prop where
  free : ∀ s ∈ ss, stop s.loc = false
  seen_eq : seen'.toList = seen.toList ++ ss.filterMap m.passing?

/-- What a frame has executed by the time it ends, or by the time that it fails or a frame
that it calls does. -/
def Executes (m : Machine) (stop : Location → Bool) (s : Spot) (cs : List Caller)
    (seen : Array Observation) (o : Outcome Track Exit) : Prop :=
  o.Meets
    (fun e t => ∃ ss, m.Runs cs ⟨s, cs⟩ ss ⟨⟨e.loc, e.frame, t.io⟩, cs⟩ ∧ e.EndsWalk m stop ∧
      m.Observes stop ss seen t.seen)
    (fun fault t => ∃ ss y, m.Runs cs ⟨s, cs⟩ ss y ∧ m.stride y = .halt (.failed fault t.io) ∧
      m.Observes stop ss seen t.seen)
    True

/-- The next instruction of a frame fails, at once or in a frame that it calls. Nothing is
passed with it. -/
def FailsAt (m : Machine) (s : Spot) (cs : List Caller) (fault : Fault) (io : Console) : Prop :=
  ∃ ss y, m.Runs cs ⟨s, cs⟩ ss y ∧ m.stride y = .halt (.failed fault io) ∧
    ∀ t ∈ ss, t = s ∧ m.passing? s = none

/-- All functions that a frame calls are executed as their walks say. -/
def CalleesRun (m : Machine) (n : Nat) (cs : List Caller) : Prop :=
  ∀ (s : Spot) (c : Caller), m.Executes (fun _ => false) s (c :: cs) #[]
    (m.walk n (cs.length + 1) (fun _ => false) s.loc.func ⟨s.loc.pc, s.frame, ⟨s.io, #[]⟩⟩)

/-- A call that returns has come to where its caller goes on, and one that fails has
come to an instruction that does. -/
theorem runs_call {n : Nat} {dst : Reg} {func : FuncId} {args : List Reg}
    (hi : m.program.instr? s.loc = some (.call dst func args))
    (hcan : m.capabilities.has .call = true) (hcallees : m.CalleesRun n cs) :
    (m.calleeAt n cs.length func (args.map s.frame.get) s.io).Meets
      (fun v io => m.Runs cs ⟨s, cs⟩ [s] ⟨⟨s.loc.after,
        s.frame.set dst v (m.program.hasEffects func || args.any s.frame.isTainted), io⟩, cs⟩)
      (m.FailsAt s cs) True := by
  have hstride : m.stride ⟨s, cs⟩ = m.startCall ⟨s, cs⟩ dst func args := by
    unfold stride
    rw [hi]
    exact if_pos hcan
  have hpassing : m.passing? s = none := by
    unfold passing?
    rw [hi]
  rcases m.startCall_cases ⟨s, cs⟩ dst func args with
    ⟨fault, hstart, -, hcallee⟩ | ⟨s', hstart, -, hcallee⟩
  · rw [hcallee n]
    exact ⟨[], _, .refl _, hstride.trans hstart, fun _ h => by cases h⟩
  · have henter := hstride.trans hstart
    have hbody := hcallees s' ⟨s.loc, s.frame, dst,
      m.program.hasEffects func || args.any s.frame.isTainted⟩
    rw [hcallee n, walkAt]
    cases hw : m.walk n (cs.length + 1) (fun _ => false) s'.loc.func
        ⟨s'.loc.pc, s'.frame, ⟨s'.io, #[]⟩⟩ with
    | starved => trivial
    | failed fault t =>
      rw [hw] at hbody
      obtain ⟨ss, y, hruns, hfails, -⟩ := hbody
      refine ⟨[s], y, .own henter hruns.of_callee, hfails, fun t ht => ?_⟩
      exact ⟨List.mem_singleton.mp ht, hpassing⟩
    | done e t =>
      rw [hw] at hbody
      obtain ⟨ss, hruns, hends, -⟩ := hbody
      obtain ⟨src, hret, he⟩ := hends.eq_returned
      rw [he]
      -- the return is the last instruction of the callee
      have hreturn := stride_ret (s := ⟨e.loc, e.frame, t.io⟩) hret (⟨s.loc, s.frame, dst,
        m.program.hasEffects func || args.any s.frame.isTainted⟩ :: cs)
      exact .own henter (hruns.of_callee.trans (.in_callee hreturn (.refl _)))

/-- What a move of a frame says about its execution. -/
def Comes (m : Machine) (s : Spot) (cs : List Caller) : Move → Prop
  | .on s' => m.Runs cs ⟨s, cs⟩ [s] ⟨s', cs⟩
  | .halt o => o.Meets (fun _ _ => True) (m.FailsAt s cs) True

theorem comes_move {n : Nat} (hcallees : m.CalleesRun n cs) :
    m.Comes s cs (m.move (m.calleeAt n cs.length) s) := by
  by_cases hcall : ∃ dst func args, m.program.instr? s.loc = some (.call dst func args)
  · obtain ⟨dst, func, args, hi⟩ := hcall
    rw [move_of_instr hi]
    unfold exec
    cases hcan : m.capabilities.has .call with
    | false =>
      simp only [Instr.needs, hcan, Bool.false_eq_true, if_false]
      refine ⟨[], ⟨s, cs⟩, .refl _, ?_, fun _ h => by cases h⟩
      unfold stride
      rw [hi]
      exact if_neg (by rw [hcan]; exact Bool.false_ne_true)
    | true =>
      have hmeets := runs_call hi hcan hcallees
      simp only [Instr.needs, hcan, if_true, perform]
      cases hr : m.calleeAt n cs.length func (args.map s.frame.get) s.io with
      | done v io =>
        rw [hr] at hmeets
        exact hmeets
      | failed fault io =>
        rw [hr] at hmeets
        exact hmeets
      | starved => trivial
  · have hcall : ∀ dst func args, m.program.instr? s.loc ≠ some (.call dst func args) :=
      fun dst func args hi => hcall ⟨dst, func, args, hi⟩
    have hstride : m.stride ⟨s, cs⟩ = _ := stride_eq_follow hcall (m.calleeAt n cs.length)
    cases hm : m.move (m.calleeAt n cs.length) s with
    | on s' =>
      rw [hm] at hstride
      exact .own hstride (.refl _)
    | halt o =>
      rw [hm] at hstride
      cases o with
      | starved => trivial
      | failed fault io => exact ⟨[], ⟨s, cs⟩, .refl _, hstride, fun _ h => by cases h⟩
      | done e io => trivial

theorem toList_note (seen : Array Observation) (o : Option Observation) :
    (note seen o).toList = seen.toList ++ o.toList := by
  cases o with
  | none => exact (List.append_nil _).symm
  | some o => exact Array.toList_push

/-- A frame that has executed nothing has observed nothing. -/
theorem Observes.nil (stop : Location → Bool) (seen : Array Observation) :
    m.Observes stop [] seen seen :=
  ⟨List.forall_mem_nil _, (List.append_nil _).symm⟩

/-- The next instruction of a frame, and all that follows. -/
theorem Executes.own {stop : Location → Bool} {seen : Array Observation} {o : Outcome Track Exit}
    (hs : stop s.loc = false) (h : m.Runs cs ⟨s, cs⟩ [s] ⟨s', cs⟩)
    (ho : m.Executes stop s' cs (note seen (m.passing? s)) o) : m.Executes stop s cs seen o := by
  have hcons : ∀ {ss seen'}, m.Observes stop ss (note seen (m.passing? s)) seen' →
      m.Observes stop (s :: ss) seen seen' := by
    intro ss seen' hss
    refine ⟨List.forall_mem_cons.mpr ⟨hs, hss.free⟩, ?_⟩
    rw [hss.seen_eq, toList_note, List.append_assoc, List.filterMap_cons]
    cases m.passing? s with
    | none => rfl
    | some o => rfl
  refine Outcome.Meets.imp ho ?_ ?_ id
  · rintro e t ⟨ss, hruns, hends, hss⟩
    exact ⟨s :: ss, h.trans hruns, hends, hcons hss⟩
  · rintro fault t ⟨ss, y, hruns, hfails, hss⟩
    exact ⟨s :: ss, y, h.trans hruns, hfails, hcons hss⟩

theorem FailsAt.executes {stop : Location → Bool} {fault : Fault} {io : Console}
    (h : m.FailsAt s cs fault io) (hs : stop s.loc = false) (seen : Array Observation) :
    m.Executes stop s cs seen (.failed fault ⟨io, seen⟩) := by
  obtain ⟨ss, y, hruns, hfails, hss⟩ := h
  have hnone : ss.filterMap m.passing? = [] := by
    refine List.filterMap_eq_nil_iff.mpr (fun t ht => ?_)
    obtain ⟨rfl, hpassing⟩ := hss t ht
    exact hpassing
  refine ⟨ss, y, hruns, hfails, fun t ht => ?_, ?_⟩
  · rw [(hss t ht).1]
    exact hs
  · rw [hnone, List.append_nil]

/-- Walks are executions, and observe what their frame passes. -/
theorem executes_walk (n : Nat) (stop : Location → Bool) (s : Spot) (cs : List Caller)
    (seen : Array Observation) :
    m.Executes stop s cs seen
      (m.walk n cs.length stop s.loc.func ⟨s.loc.pc, s.frame, ⟨s.io, seen⟩⟩) := by
  -- on the allowance: calls and the rest of the frame both walk on a smaller one
  induction n generalizing stop s cs seen with
  | zero => trivial
  | succ n ih =>
    by_cases hs : stop s.loc = true
    · rw [m.walk_succ]
      cases hi : m.program.instr? s.loc with
      | none =>
        refine ⟨[], ⟨s, cs⟩, .refl _, ?_, .nil stop seen⟩
        unfold stride move
        rw [hi]
        rfl
      | some i =>
        dsimp only
        rw [if_pos hs]
        exact ⟨[], .refl _, hs, .nil stop seen⟩
    · have hs : stop s.loc = false := Bool.eq_false_iff.mpr hs
      rw [walk_move n cs.length hs]
      have hcomes : m.Comes s cs (m.move (m.calleeAt n cs.length) s) :=
        comes_move (fun s' c => ih (fun _ => false) s' (c :: cs) #[])
      cases hm : m.move (m.calleeAt n cs.length) s with
      | on s' =>
        rw [hm] at hcomes
        exact .own hs hcomes (ih stop s' cs _)
      | halt o =>
        rw [hm] at hcomes
        cases o with
        | starved => trivial
        | failed fault io => exact FailsAt.executes hcomes hs seen
        | done e io =>
          obtain ⟨src, hret, rfl, rfl⟩ := move_eq_done hm
          exact ⟨[], .refl _, ⟨src, hret, rfl⟩, .nil stop seen⟩

/-- So the outcome of a walk is that of its execution. -/
theorem strides_walkAt (n : Nat) (stop : Location → Bool) (s : Spot) (cs : List Caller) :
    m.Strides stop ⟨s, cs⟩ (m.walkAt n cs.length stop s) := by
  have hexecutes := m.executes_walk n stop s cs #[]
  unfold walkAt
  cases hw : m.walk n cs.length stop s.loc.func ⟨s.loc.pc, s.frame, ⟨s.io, #[]⟩⟩ with
  | starved => trivial
  | failed fault t =>
    rw [hw] at hexecutes
    obtain ⟨ss, y, hruns, hfails, -⟩ := hexecutes
    exact ⟨y, hruns.gets, hfails⟩
  | done e t =>
    rw [hw] at hexecutes
    obtain ⟨ss, hruns, hends, -⟩ := hexecutes
    exact ⟨hruns.gets, hends⟩

/-- So is every way of the top frame. -/
theorem Reaches.gets {stop : Location → Bool} (h : m.Reaches m.callee stop s s') :
    m.Gets ⟨s, []⟩ ⟨s', []⟩ := by
  induction h with
  | refl => exact .refl _
  | @tail t t' _ hstep ih =>
    obtain ⟨n, hn⟩ := m.exists_move_eq t
    have hmove : m.move (m.calleeAt n 0) t = .on t' := by
      rw [calleeAt_zero, hn n (Nat.le_refl n)]
      exact hstep.2
    have hcomes : m.Comes t [] (m.move (m.calleeAt n 0) t) :=
      comes_move (fun s' c => executes_walk n (fun _ => false) s' [c] #[])
    rw [hmove] at hcomes
    exact ih.trans (Runs.gets hcomes)

-- ============================================================================
-- What is printed stays printed
-- ============================================================================

theorem printed_perform {loc : Location} {i : Instr} {f : Frame} {io io' : Console} {st : Step}
    (h : m.perform noCallee loc i f io = .done st io') : io.printed <:+ io'.printed := by
  cases i with
  | input dst =>
    cases h
    unfold Console.read
    split
    · exact List.suffix_refl _
    · exact List.suffix_refl _
  | print src =>
    cases h
    exact List.suffix_cons _ _
  | binary op dst lhs rhs =>
    simp only [perform] at h
    split at h
    · cases h
      exact List.suffix_refl _
    · cases h
  | getField dst obj index =>
    simp only [perform] at h
    split at h
    · cases h
      exact List.suffix_refl _
    · cases h
  | call dst func args => cases h
  | const | move | alloc | jump | branch | mergePoint | promote | ret =>
    cases h
    exact List.suffix_refl _

theorem perform_eq_failed {loc : Location} {i : Instr} {f : Frame} {io io' : Console}
    {fault : Fault} (h : m.perform noCallee loc i f io = .failed fault io') :
    io' = io ∧ ∃ cause, fault = .runtime cause := by
  cases i with
  | binary op dst lhs rhs =>
    simp only [perform] at h
    split at h
    · cases h
    · cases h
      exact ⟨rfl, _, rfl⟩
  | getField dst obj index =>
    simp only [perform] at h
    split at h
    · cases h
    · cases h
      exact ⟨rfl, _, rfl⟩
  | _ => cases h

/-- An instruction that fails leaves the console as it was. -/
theorem exec_eq_failed {loc : Location} {i : Instr} {f : Frame} {io io' : Console} {fault : Fault}
    (h : m.exec noCallee loc i f io = .failed fault io') :
    io' = io ∧ ((∃ c, fault = .gap c loc ∧ i.needs = some c ∧ m.capabilities.has c = false) ∨
      ∃ cause, fault = .runtime cause) := by
  unfold exec at h
  cases hn : i.needs with
  | none =>
    rw [hn] at h
    obtain ⟨hio, hcause⟩ := perform_eq_failed h
    exact ⟨hio, Or.inr hcause⟩
  | some c =>
    rw [hn] at h
    dsimp only at h
    split at h
    · obtain ⟨hio, hcause⟩ := perform_eq_failed h
      exact ⟨hio, Or.inr hcause⟩
    · next hc =>
      cases h
      exact ⟨rfl, Or.inl ⟨c, rfl, rfl, Bool.eq_false_iff.mpr hc⟩⟩

/-- What an instruction may do to the console of an execution: one that goes on may
print, and one that ends it does not. A capability is missed by the instruction that
needs it. -/
def Keeps (m : Machine) (x : Execution) : Stride → Prop
  | .on y => x.spot.io.printed <:+ y.spot.io.printed
  | .halt o => o.Meets (fun _ io => io = x.spot.io)
      (fun fault io => io = x.spot.io ∧ ∀ c loc, fault = .gap c loc → loc = x.spot.loc ∧
        ∃ i, m.program.instr? loc = some i ∧ i.needs = some c ∧ m.capabilities.has c = false)
      True

theorem keeps_stride (m : Machine) (x : Execution) : m.Keeps x (m.stride x) := by
  unfold stride
  split
  · next dst func args hi =>
    split
    · rcases m.startCall_cases x dst func args with ⟨fault, hstart, hgap, -⟩ | ⟨s, hstart, hio, -⟩
      · rw [hstart]
        exact ⟨rfl, fun c loc hfault => absurd hfault (hgap c loc)⟩
      · rw [hstart]
        show x.spot.io.printed <:+ s.io.printed
        simp [hio]
    · next hc =>
      refine ⟨rfl, ?_⟩
      rintro c loc ⟨⟩
      exact ⟨rfl, _, hi, rfl, Bool.eq_false_iff.mpr hc⟩
  · cases hm : m.move noCallee x.spot with
    | on s =>
      obtain ⟨i, st, -, hperform, -, -⟩ := move_eq_on hm
      exact printed_perform hperform
    | halt o =>
      cases o with
      | starved => trivial
      | done e io =>
        obtain ⟨src, -, rfl, rfl⟩ := move_eq_done hm
        cases x.callers with
        | nil => exact rfl
        | cons c cs => exact List.suffix_refl _
      | failed fault io =>
        rcases move_eq_failed hm with ⟨rfl, hio⟩ | ⟨i, hi, hx⟩
        · exact ⟨hio, nofun⟩
        · obtain ⟨hio, ⟨c', rfl, hn, hc⟩ | ⟨cause, rfl⟩⟩ := exec_eq_failed hx
          · refine ⟨hio, ?_⟩
            rintro c loc ⟨⟩
            exact ⟨rfl, i, hi, hn, hc⟩
          · exact ⟨hio, nofun⟩

theorem printed_after {n : Nat} (h : m.after n x = some y) :
    x.spot.io.printed <:+ y.spot.io.printed := by
  have hgets : m.Gets x y := ⟨n, h⟩
  refine hgets.keeps (P := fun z => x.spot.io.printed <:+ z.spot.io.printed) ?_ (List.suffix_refl _)
  intro y z hs hprinted
  have hkeeps := m.keeps_stride y
  rw [hs] at hkeeps
  exact List.IsSuffix.trans hprinted hkeeps

-- ============================================================================
-- Executions that end
-- ============================================================================

/-- An execution comes to its end, with an outcome. -/
def Completes (m : Machine) (x : Execution) (o : Outcome Console Exit) : Prop :=
  ∃ y, m.Gets x y ∧ m.stride y = .halt o

/-- An execution that ends does so from all that it comes to. -/
theorem Completes.of_after {n : Nat} {o : Outcome Console Exit} (h : m.Completes x o)
    (hy : m.after n x = some y) : m.Completes y o := by
  obtain ⟨z, ⟨k, hk⟩, ho⟩ := h
  obtain ⟨d, rfl⟩ := Nat.exists_eq_add_of_le (after_le_of_halt hy hk ho)
  rw [after_add, hy, Option.bind_some] at hk
  exact ⟨z, ⟨d, hk⟩, ho⟩

/-- What an execution has printed, it has printed at its end. -/
theorem Completes.printed {o : Outcome Console Exit} (h : m.Completes x o) :
    o.Meets (fun _ io => x.spot.io.printed <:+ io.printed)
      (fun _ io => x.spot.io.printed <:+ io.printed) True := by
  obtain ⟨z, ⟨k, hk⟩, ho⟩ := h
  have hkeeps := m.keeps_stride z
  rw [ho] at hkeeps
  refine Outcome.Meets.imp hkeeps ?_ ?_ id
  · rintro e io rfl
    exact printed_after hk
  · rintro fault io ⟨rfl, -⟩
    exact printed_after hk

/-- What interpreting comes to is how its execution ends. -/
theorem completes_final {o : Outcome Console Exit} (h : m.final (fun _ => false) s = o)
    (ho : o ≠ .starved) : m.Completes ⟨s, []⟩ o := by
  obtain ⟨k, hk⟩ := Outcome.exists_eq_eventual (m.walkFrom_chain (fun _ => false) s)
  have hwalk : m.walkFrom k (fun _ => false) s = o := (hk k (Nat.le_refl k)).trans h
  have hstrides : m.Strides (fun _ => false) ⟨s, []⟩ o := hwalk ▸ strides_walkAt k _ s []
  cases o with
  | starved => exact absurd rfl ho
  | failed fault io => exact hstrides
  | done e io =>
    obtain ⟨hgets, hends⟩ := hstrides
    obtain ⟨src, hret, he⟩ := hends.eq_returned
    rw [he]
    exact ⟨_, hgets, stride_ret hret []⟩

end Machine

end HotPath
