/-
  HotPath.Proofs.Machine.Reach

  The top frame, one instruction at a time. A *spot* is where the top frame
  stands, with its registers and the console; `Machine.move` is what the next
  instruction does to it, `Machine.passing?` is what is passed with it, and
  `Machine.Reaches` follows it over any number of instructions, none of them at a
  place where the walk has to stop.

  Walks are tied to this view in both directions: a walk that answers has
  reached a spot where it concludes (`Machine.concludes_of_walkFrom`), and what
  concludes is what walks eventually give (`Machine.Concludes.final_eq`). So
  whatever is shown to follow the machine from spot to spot ends as it does.
-/
import HotPath.Proofs.Machine.Allowance
import Mathlib.Logic.Relation

namespace HotPath

/-- The address after this one. -/
def Location.after (l : Location) : Location := ⟨l.func, l.pc + 1⟩

/-- Where the top frame stands. -/
structure Spot where
  loc : Location
  frame : Frame
  io : Console

/-- What an instruction does to a spot. -/
inductive Move where
  /-- The frame goes on from another spot. -/
  | on (next : Spot)
  /-- The frame returned or failed. -/
  | halt (outcome : Outcome Console Exit)

/-- What an instruction at an address does, from how it was executed. -/
def Move.ofExec (loc : Location) : Outcome Console Machine.Step → Move
  | .done st io =>
    match st.flow with
    | .next => .on ⟨loc.after, st.frame, io⟩
    | .goto pc => .on ⟨⟨loc.func, pc⟩, st.frame, io⟩
    | .ret v => .halt (.done ⟨loc, .returned v, st.frame⟩ io)
  | .failed e io => .halt (.failed e io)
  | .starved => .halt .starved

namespace Machine

/-- What the next instruction does to a spot. -/
def move (m : Machine) (call : Callee) (s : Spot) : Move :=
  match m.program.instr? s.loc with
  | none => .halt (.failed (.program (.noInstr s.loc)) s.io)
  | some i => Move.ofExec s.loc (m.exec call s.loc i s.frame s.io)

theorem move_of_instr {m : Machine} {call : Callee} {s : Spot} {i : Instr}
    (hi : m.program.instr? s.loc = some i) :
    m.move call s = Move.ofExec s.loc (m.exec call s.loc i s.frame s.io) := by
  unfold move
  rw [hi]

theorem move_below (m : Machine) {c d : Callee} (h : c.Below d) (s : Spot) :
    m.move c s = .halt .starved ∨ m.move c s = m.move d s := by
  unfold move
  cases m.program.instr? s.loc with
  | none => exact Or.inr rfl
  | some i =>
    rcases m.exec_below h s.loc i s.frame s.io with hx | hx
    · exact Or.inl (by simp only [hx, Move.ofExec])
    · exact Or.inr (by simp only [hx])

theorem exists_move_eq (m : Machine) (s : Spot) :
    ∃ n, ∀ k, n ≤ k → m.move (m.call k 1) s = m.move m.callee s := by
  unfold move
  cases m.program.instr? s.loc with
  | none => exact ⟨0, fun _ _ => rfl⟩
  | some i =>
    obtain ⟨n, hn⟩ := m.exists_exec_eq s.loc i s.frame s.io
    exact ⟨n, fun k hk => by simp only [hn k hk]⟩

-- ============================================================================
-- Walks from a spot
-- ============================================================================

/-- Runs the top frame from a spot, and forgets what it observed. -/
def walkFrom (m : Machine) (fuel : Nat) (stop : Location → Bool) (s : Spot) :
    Outcome Console Exit :=
  (m.walk fuel 0 stop s.loc.func ⟨s.loc.pc, s.frame, ⟨s.io, #[]⟩⟩).mapState Track.io

/-- What was observed before has no influence on a walk. -/
theorem walk_seen (m : Machine) (n depth : Nat) (stop : Location → Bool) (func : FuncId)
    (pc : Nat) (f : Frame) (io : Console) (seen seen' : Array Observation) :
    (m.walk n depth stop func ⟨pc, f, ⟨io, seen⟩⟩).mapState Track.io =
      (m.walk n depth stop func ⟨pc, f, ⟨io, seen'⟩⟩).mapState Track.io := by
  induction n generalizing pc f io seen seen' with
  | zero => rfl
  | succ n ih =>
    rw [m.walk_succ, m.walk_succ]
    cases m.program.instr? ⟨func, pc⟩ with
    | none => rfl
    | some i =>
      dsimp only
      by_cases hs : stop ⟨func, pc⟩ = true
      · simp only [hs, if_true, Outcome.mapState]
      · simp only [hs]
        cases m.exec (m.calleeAt n depth) ⟨func, pc⟩ i f io with
        | starved => rfl
        | failed e io => rfl
        | done st io =>
          simp only [Bool.false_eq_true, if_false, resumeStep]
          cases st.flow with
          | next => exact ih _ _ _ _ _
          | goto pc => exact ih _ _ _ _ _
          | ret v => rfl

/-- Runs a frame at a depth from a spot, and forgets what it observed. -/
def walkAt (m : Machine) (fuel depth : Nat) (stop : Location → Bool) (s : Spot) :
    Outcome Console Exit :=
  (m.walk fuel depth stop s.loc.func ⟨s.loc.pc, s.frame, ⟨s.io, #[]⟩⟩).mapState Track.io

theorem walkAt_of_stop {m : Machine} {stop : Location → Bool} {s : Spot} (n depth : Nat)
    (hi : (m.program.instr? s.loc).isSome = true) (hs : stop s.loc = true) :
    m.walkAt (n + 1) depth stop s = .done ⟨s.loc, .mergePoint, s.frame⟩ s.io := by
  obtain ⟨i, hi⟩ := Option.isSome_iff_exists.mp hi
  unfold walkAt
  rw [m.walk_succ, hi]
  dsimp only
  rw [if_pos hs]
  rfl

/-- What is executed is performed. -/
theorem perform_of_exec {m : Machine} {call : Callee} {loc : Location} {i : Instr} {f : Frame}
    {io io' : Console} {st : Step} (h : m.exec call loc i f io = .done st io') :
    m.perform call loc i f io = .done st io' := by
  unfold exec at h
  split at h
  · exact h
  · split at h
    · exact h
    · cases h

/-- Only a return leaves the function, and it changes nothing. -/
theorem perform_ret {m : Machine} {call : Callee} {loc : Location} {i : Instr} {f : Frame}
    {io io' : Console} {st : Step} {v : Value} (h : m.perform call loc i f io = .done st io')
    (hv : st.flow = .ret v) :
    ∃ src, i = .ret src ∧ f.get src = v ∧ st.frame = f ∧ io' = io := by
  cases i with
  | ret src =>
    cases h
    cases hv
    exact ⟨src, rfl, rfl, rfl, rfl⟩
  | binary op dst lhs rhs =>
    simp only [perform] at h
    split at h
    · cases h
      cases hv
    · cases h
  | getField dst obj index =>
    simp only [perform] at h
    split at h
    · cases h
      cases hv
    · cases h
  | call dst g args =>
    simp only [perform] at h
    split at h
    · cases h
      cases hv
    · cases h
    · cases h
  | branch cond elsePc join =>
    cases h
    dsimp only at hv
    split at hv
    · cases hv
    · cases hv
  | const | move | input | alloc | print | jump | mergePoint | promote =>
    cases h
    cases hv

/-- What a frame passes with its next instruction, if that is worth counting: an arm of a
split, or a promotion site with an untainted value. -/
def passing? (m : Machine) (s : Spot) : Option Observation :=
  match m.program.instr? s.loc with
  | some (.branch cond _ _) => some (.split s.loc (s.frame.get cond).truthy)
  | some (.promote reg) =>
    if s.frame.isTainted reg then none else some (.promotion s.loc (s.frame.get reg))
  | _ => none

/-- That is what an instruction has seen once it is executed. -/
theorem seen_of_perform {m : Machine} {call : Callee} {s : Spot} {i : Instr} {st : Step}
    {io : Console} (hi : m.program.instr? s.loc = some i)
    (h : m.perform call s.loc i s.frame s.io = .done st io) : st.seen = m.passing? s := by
  unfold passing?
  rw [hi]
  cases i with
  | binary op dst lhs rhs =>
    simp only [perform] at h
    split at h
    · cases h
      rfl
    · cases h
  | getField dst obj index =>
    simp only [perform] at h
    split at h
    · cases h
      rfl
    · cases h
  | call dst g args =>
    simp only [perform] at h
    split at h
    · cases h
      rfl
    · cases h
    · cases h
  | const | move | input | print | alloc | jump | branch | mergePoint | promote | ret =>
    cases h
    rfl

/-- One instruction of a walk at a depth, with what it has observed. -/
theorem walk_move {m : Machine} {stop : Location → Bool} {s : Spot} (n depth : Nat)
    (hs : stop s.loc = false) (seen : Array Observation) :
    m.walk (n + 1) depth stop s.loc.func ⟨s.loc.pc, s.frame, ⟨s.io, seen⟩⟩ =
      match m.move (m.calleeAt n depth) s with
      | .on s' => m.walk n depth stop s'.loc.func
          ⟨s'.loc.pc, s'.frame, ⟨s'.io, note seen (m.passing? s)⟩⟩
      | .halt o => o.mapState (fun io => ⟨io, seen⟩) := by
  have hs' : ¬ stop ⟨s.loc.func, s.loc.pc⟩ = true := by
    rw [show (⟨s.loc.func, s.loc.pc⟩ : Location) = s.loc from rfl, hs]
    exact Bool.false_ne_true
  rw [m.walk_succ]
  unfold move
  cases hi : m.program.instr? s.loc with
  | none => rfl
  | some i =>
    dsimp only
    rw [if_neg hs']
    cases hx : m.exec (m.calleeAt n depth) s.loc i s.frame s.io with
    | starved => rfl
    | failed e io => rfl
    | done st io =>
      have hperform := perform_of_exec hx
      simp only [resumeStep, Move.ofExec, seen_of_perform hi hperform]
      cases hflow : st.flow with
      | next => rfl
      | goto pc => rfl
      | ret v =>
        -- a return passes nothing
        obtain ⟨src, rfl, -⟩ := perform_ret hperform hflow
        unfold passing?
        rw [hi]
        rfl

/-- One instruction of a walk at a depth. -/
theorem walkAt_succ {m : Machine} {stop : Location → Bool} {s : Spot} (n depth : Nat)
    (hs : stop s.loc = false) :
    m.walkAt (n + 1) depth stop s =
      match m.move (m.calleeAt n depth) s with
      | .on s' => m.walkAt n depth stop s'
      | .halt o => o := by
  unfold walkAt
  rw [walk_move n depth hs]
  cases m.move (m.calleeAt n depth) s with
  | on s' => exact m.walk_seen _ _ _ _ _ _ _ _ _
  | halt o => cases o <;> rfl

theorem walkFrom_of_stop {m : Machine} {stop : Location → Bool} {s : Spot} (n : Nat)
    (hi : (m.program.instr? s.loc).isSome = true) (hs : stop s.loc = true) :
    m.walkFrom (n + 1) stop s = .done ⟨s.loc, .mergePoint, s.frame⟩ s.io :=
  walkAt_of_stop n 0 hi hs

/-- One instruction of a walk. -/
theorem walkFrom_succ {m : Machine} {stop : Location → Bool} {s : Spot} (n : Nat)
    (hs : stop s.loc = false) :
    m.walkFrom (n + 1) stop s =
      match m.move (m.call n 1) s with
      | .on s' => m.walkFrom n stop s'
      | .halt o => o := walkAt_succ n 0 hs

theorem walkFrom_chain (m : Machine) (stop : Location → Bool) (s : Spot) :
    Outcome.Chain (fun n => m.walkFrom n stop s) :=
  fun n => (m.walk_below n 0 stop _ _).mapState Track.io

/-- What walks from a spot eventually give. -/
noncomputable def final (m : Machine) (stop : Location → Bool) (s : Spot) :
    Outcome Console Exit :=
  Outcome.eventual (fun n => m.walkFrom n stop s)

theorem final_eq_of_walkFrom {m : Machine} {stop : Location → Bool} {s : Spot} {n : Nat}
    (h : m.walkFrom n stop s ≠ .starved) : m.final stop s = m.walkFrom n stop s :=
  Outcome.eventual_eq (m.walkFrom_chain stop s) h

-- ============================================================================
-- Reaching a spot
-- ============================================================================

/-- One instruction leads from a spot to another. -/
def Steps (m : Machine) (call : Callee) (stop : Location → Bool) (s s' : Spot) : Prop :=
  stop s.loc = false ∧ m.move call s = .on s'

/-- Instructions lead from a spot to another. -/
def Reaches (m : Machine) (call : Callee) (stop : Location → Bool) : Spot → Spot → Prop :=
  Relation.ReflTransGen (m.Steps call stop)

/-- At least one instruction leads from a spot to another. -/
def Passes (m : Machine) (call : Callee) (stop : Location → Bool) : Spot → Spot → Prop :=
  Relation.TransGen (m.Steps call stop)

/-- The walk ends at a spot. -/
inductive Stops (m : Machine) (call : Callee) (stop : Location → Bool) (s : Spot) :
    Outcome Console Exit → Prop where
  | arrives (hs : stop s.loc = true) (hi : (m.program.instr? s.loc).isSome = true) :
    Stops m call stop s (.done ⟨s.loc, .mergePoint, s.frame⟩ s.io)
  | halts {o : Outcome Console Exit} (hs : stop s.loc = false) (hm : m.move call s = .halt o) :
    Stops m call stop s o

/-- The walk from a spot ends with an outcome. -/
def Concludes (m : Machine) (call : Callee) (stop : Location → Bool) (s : Spot)
    (o : Outcome Console Exit) : Prop :=
  ∃ s', m.Reaches call stop s s' ∧ m.Stops call stop s' o

variable {m : Machine} {call : Callee} {stop : Location → Bool}

theorem Reaches.concludes {s s' : Spot} {o : Outcome Console Exit}
    (h : m.Reaches call stop s s') (hc : m.Concludes call stop s' o) :
    m.Concludes call stop s o := by
  obtain ⟨t, ht, ho⟩ := hc
  exact ⟨t, h.trans ht, ho⟩

/-- Fewer stops are no obstacle. -/
theorem Steps.weaken {stop' : Location → Bool} (h : ∀ l, stop' l = true → stop l = true)
    {s s' : Spot} (hs : m.Steps call stop s s') : m.Steps call stop' s s' := by
  refine ⟨?_, hs.2⟩
  cases hl : stop' s.loc with
  | false => rfl
  | true => rw [← hs.1, h _ hl]

theorem Reaches.weaken {stop' : Location → Bool} (h : ∀ l, stop' l = true → stop l = true)
    {s s' : Spot} (hr : m.Reaches call stop s s') : m.Reaches call stop' s s' := by
  induction hr with
  | refl => exact .refl
  | tail _ hs ih => exact ih.tail (hs.weaken h)

/-- An instruction leaves a frame of the same size. -/
theorem size_of_perform {loc : Location} {i : Instr} {f : Frame} {io io' : Console} {st : Step}
    (h : m.perform call loc i f io = .done st io') : st.frame.size = f.size := by
  cases i with
  | binary op dst lhs rhs =>
    simp only [perform] at h
    cases hv : op.eval (f.get lhs) (f.get rhs) with
    | error e =>
      rw [hv] at h
      cases h
    | ok v =>
      rw [hv] at h
      cases h
      exact f.size_set _ _ _
  | getField dst obj index =>
    simp only [perform] at h
    cases hv : (f.get obj).field index with
    | error e =>
      rw [hv] at h
      cases h
    | ok v =>
      rw [hv] at h
      cases h
      exact f.size_set _ _ _
  | call dst g args =>
    simp only [perform] at h
    cases hv : call g (args.map f.get) io with
    | done v io₁ =>
      rw [hv] at h
      cases h
      exact f.size_set _ _ _
    | failed e io₁ =>
      rw [hv] at h
      cases h
    | starved =>
      rw [hv] at h
      cases h
  | const | move | input | alloc =>
    cases h
    exact f.size_set _ _ _
  | print | jump | branch | mergePoint | promote | ret =>
    cases h
    rfl

/-- Where control goes on in its function. -/
def Flow.target? (pc : Nat) : Flow → Option Nat
  | .next => some (pc + 1)
  | .goto t => some t
  | .ret _ => none

section Move

variable {loc : Location} {o : Outcome Console Step} {io : Console}

/-- A frame goes on from what its instruction has left. -/
theorem ofExec_eq_on {s : Spot} (h : Move.ofExec loc o = .on s) :
    ∃ st, o = .done st s.io ∧ s.loc.func = loc.func ∧ st.flow.target? loc.pc = some s.loc.pc ∧
      s.frame = st.frame := by
  cases o with
  | failed e io => cases h
  | starved => cases h
  | done st io =>
    simp only [Move.ofExec] at h
    cases hflow : st.flow with
    | ret v =>
      rw [hflow] at h
      cases h
    | next | goto pc =>
      rw [hflow] at h
      cases h
      exact ⟨st, rfl, rfl, by rw [hflow]; rfl, rfl⟩

theorem ofExec_eq_failed {fault : Fault} (h : Move.ofExec loc o = .halt (.failed fault io)) :
    o = .failed fault io := by
  cases o with
  | failed e io =>
    cases h
    rfl
  | starved => cases h
  | done st io =>
    simp only [Move.ofExec] at h
    cases hflow : st.flow with
    | ret | next | goto =>
      rw [hflow] at h
      cases h

theorem ofExec_eq_done {e : Exit} (h : Move.ofExec loc o = .halt (.done e io)) :
    ∃ st v, o = .done st io ∧ st.flow = .ret v ∧ e = ⟨loc, .returned v, st.frame⟩ := by
  cases o with
  | failed e io => cases h
  | starved => cases h
  | done st io =>
    simp only [Move.ofExec] at h
    cases hflow : st.flow with
    | next | goto =>
      rw [hflow] at h
      cases h
    | ret v =>
      rw [hflow] at h
      cases h
      exact ⟨st, v, rfl, hflow, rfl⟩

end Move

/-- A frame moves only if there is an instruction; if not, it fails. -/
theorem move_cases (m : Machine) (call : Callee) (s : Spot) :
    (m.program.instr? s.loc = none ∧
      m.move call s = .halt (.failed (.program (.noInstr s.loc)) s.io)) ∨
    ∃ i, m.program.instr? s.loc = some i ∧
      m.move call s = Move.ofExec s.loc (m.exec call s.loc i s.frame s.io) := by
  unfold move
  cases hi : m.program.instr? s.loc with
  | none => exact Or.inl ⟨rfl, rfl⟩
  | some i => exact Or.inr ⟨i, rfl, rfl⟩

/-- The top frame is done with where it returns. -/
theorem move_eq_done {s : Spot} {e : Exit} {io : Console}
    (h : m.move call s = .halt (.done e io)) :
    ∃ src, m.program.instr? s.loc = some (.ret src) ∧
      e = ⟨s.loc, .returned (s.frame.get src), s.frame⟩ ∧ io = s.io := by
  rcases m.move_cases call s with ⟨-, hm⟩ | ⟨i, hi, hm⟩
  · rw [hm] at h
    cases h
  · rw [hm] at h
    obtain ⟨st, v, hx, hflow, rfl⟩ := ofExec_eq_done h
    obtain ⟨src, rfl, rfl, hframe, hio⟩ := perform_ret (perform_of_exec hx) hflow
    exact ⟨src, hi, by rw [hframe], hio⟩

/-- A frame that goes on has performed its instruction. -/
theorem move_eq_on {s s' : Spot} (h : m.move call s = .on s') :
    ∃ i st, m.program.instr? s.loc = some i ∧
      m.perform call s.loc i s.frame s.io = .done st s'.io ∧
      s'.loc.func = s.loc.func ∧ s'.frame = st.frame := by
  rcases m.move_cases call s with ⟨-, hm⟩ | ⟨i, hi, hm⟩
  · rw [hm] at h
    cases h
  · rw [hm] at h
    obtain ⟨st, hx, hfunc, -, hframe⟩ := ofExec_eq_on h
    exact ⟨i, st, hi, perform_of_exec hx, hfunc, hframe⟩

/-- A frame that fails has no instruction, or one that fails. -/
theorem move_eq_failed {s : Spot} {fault : Fault} {io : Console}
    (h : m.move call s = .halt (.failed fault io)) :
    (fault = .program (.noInstr s.loc) ∧ io = s.io) ∨
      ∃ i, m.program.instr? s.loc = some i ∧
        m.exec call s.loc i s.frame s.io = .failed fault io := by
  rcases m.move_cases call s with ⟨-, hm⟩ | ⟨i, hi, hm⟩
  · rw [hm] at h
    cases h
    exact Or.inl ⟨rfl, rfl⟩
  · rw [hm] at h
    exact Or.inr ⟨i, hi, ofExec_eq_failed h⟩

/-- The top frame stays one of its function. -/
theorem Steps.same_frame {s s' : Spot} (h : m.Steps call stop s s') :
    s'.loc.func = s.loc.func ∧ s'.frame.size = s.frame.size := by
  obtain ⟨i, st, -, hperform, hfunc, hframe⟩ := move_eq_on h.2
  rw [hframe]
  exact ⟨hfunc, size_of_perform hperform⟩

theorem Reaches.same_frame {s s' : Spot} (h : m.Reaches call stop s s') :
    s'.loc.func = s.loc.func ∧ s'.frame.size = s.frame.size := by
  induction h with
  | refl => exact ⟨rfl, rfl⟩
  | tail _ hs ih => exact ⟨hs.same_frame.1.trans ih.1, hs.same_frame.2.trans ih.2⟩

-- ============================================================================
-- Walks and spots agree
-- ============================================================================

/-- An instruction takes one unit of a walk's allowance. -/
theorem Steps.walkFrom_eq {s s' : Spot} (h : m.Steps m.callee stop s s') {n : Nat}
    (hn : m.walkFrom (n + 1) stop s ≠ .starved) :
    m.walkFrom n stop s' = m.walkFrom (n + 1) stop s := by
  obtain ⟨hs, hm⟩ := h
  rw [walkFrom_succ n hs] at hn ⊢
  rcases m.move_below (m.call_below_callee n) s with hx | hx
  · rw [hx] at hn
    exact absurd rfl hn
  · rw [hx, hm]

theorem Steps.final_eq {s s' : Spot} (h : m.Steps m.callee stop s s') :
    m.final stop s = m.final stop s' := by
  obtain ⟨n, hn⟩ := m.exists_move_eq s
  refine Outcome.eventual_congr_succ (m.walkFrom_chain stop s) (m.walkFrom_chain stop s')
    (n := n) (fun k hk => ?_)
  simp only [walkFrom_succ k h.1, hn k hk, h.2]

theorem Reaches.final_eq {s s' : Spot} (h : m.Reaches m.callee stop s s') :
    m.final stop s = m.final stop s' := by
  induction h with
  | refl => rfl
  | tail _ hs ih => rw [ih, hs.final_eq]

theorem Stops.final_eq {s : Spot} {o : Outcome Console Exit} (h : m.Stops m.callee stop s o) :
    m.final stop s = o := by
  cases h with
  | arrives hs hi =>
    have h1 := walkFrom_of_stop 0 hi hs
    rw [final_eq_of_walkFrom (n := 1) (by rw [h1]; exact nofun), h1]
  | halts hs hm =>
    obtain ⟨n, hn⟩ := m.exists_move_eq s
    have hall : ∀ k, n ≤ k → m.walkFrom (k + 1) stop s = o := by
      intro k hk
      rw [walkFrom_succ k hs, hn k hk, hm]
    obtain ⟨a, ha⟩ := Outcome.exists_eq_eventual (m.walkFrom_chain stop s)
    have hk := ha (max n a + 1) (by omega)
    rw [hall _ (by omega)] at hk
    exact hk.symm

/-- Walks eventually give what the machine concludes with. -/
theorem Concludes.final_eq {s : Spot} {o : Outcome Console Exit}
    (h : m.Concludes m.callee stop s o) : m.final stop s = o := by
  obtain ⟨s', hr, hs⟩ := h
  rw [hr.final_eq, hs.final_eq]

/-- A walk that answers has reached a spot where it concludes. -/
theorem concludes_of_walkFrom (hstop : ∀ l, stop l = true → (m.program.instr? l).isSome = true)
    {n : Nat} {s : Spot} (h : m.walkFrom n stop s ≠ .starved) :
    m.Concludes m.callee stop s (m.walkFrom n stop s) := by
  induction n generalizing s with
  | zero => exact absurd rfl h
  | succ n ih =>
    by_cases hs : stop s.loc = true
    · rw [walkFrom_of_stop n (hstop _ hs) hs]
      exact ⟨s, .refl, .arrives hs (hstop _ hs)⟩
    · have hs' : stop s.loc = false := by simpa using hs
      rw [walkFrom_succ n hs'] at h ⊢
      rcases m.move_below (m.call_below_callee n) s with hx | hx
      · rw [hx] at h
        exact absurd rfl h
      · rw [hx] at h ⊢
        cases hm : m.move m.callee s with
        | halt o => exact ⟨s, .refl, .halts hs' hm⟩
        | on s' =>
          rw [hm] at h
          exact Reaches.concludes (.single ⟨hs', hm⟩) (ih h)

-- ============================================================================
-- Walks that end
-- ============================================================================

/-- Going on from a spot that was reached takes no longer. -/
theorem Reaches.within {s s' : Spot} (h : m.Reaches m.callee stop s s') {n : Nat}
    (hn : m.walkFrom n stop s ≠ .starved) : m.walkFrom n stop s' ≠ .starved := by
  induction h with
  | refl => exact hn
  | tail _ hs ih =>
    cases n with
    | zero => exact absurd rfl ih
    | succ n =>
      rw [← hs.walkFrom_eq ih] at ih
      have hmore : m.walkFrom n stop _ = m.walkFrom (n + 1) stop _ :=
        (m.walkFrom_chain stop _ n).eq_of_ne ih
      rw [← hmore]
      exact ih

/-- Going on after an instruction takes less. -/
theorem Passes.within {s s' : Spot} (h : m.Passes m.callee stop s s') {n : Nat}
    (hn : m.walkFrom n stop s ≠ .starved) : ∃ k, k < n ∧ m.walkFrom k stop s' ≠ .starved := by
  obtain ⟨t, hs, hr⟩ := Relation.TransGen.head'_iff.mp h
  cases n with
  | zero => exact absurd rfl hn
  | succ n =>
    refine ⟨n, Nat.lt_succ_self n, Reaches.within hr ?_⟩
    rw [hs.walkFrom_eq hn]
    exact hn

/-- A walk that ends also ends if it has more places to stop at. -/
theorem walkFrom_stopping {stop' : Location → Bool}
    (hinstr : ∀ l, stop' l = true → (m.program.instr? l).isSome = true)
    (hsub : ∀ l, stop l = true → stop' l = true) {n : Nat} {s : Spot}
    (hn : m.walkFrom n stop s ≠ .starved) : m.walkFrom n stop' s ≠ .starved := by
  induction n generalizing s with
  | zero => exact hn
  | succ n ih =>
    cases hs' : stop' s.loc with
    | true =>
      rw [walkFrom_of_stop n (hinstr _ hs') hs']
      exact nofun
    | false =>
      have hs : stop s.loc = false := by
        cases hs : stop s.loc with
        | false => rfl
        | true => rw [← hs', hsub _ hs]
      rw [walkFrom_succ n hs] at hn
      rw [walkFrom_succ n hs']
      cases hm : m.move (m.call n 1) s with
      | on t =>
        rw [hm] at hn
        exact ih hn
      | halt o =>
        rw [hm] at hn
        exact hn

/-- Fewer stops are no obstacle to an end that is no stop. -/
theorem Concludes.weaken {stop' : Location → Bool} (hsub : ∀ l, stop' l = true → stop l = true)
    {s : Spot} {o : Outcome Console Exit} (h : m.Concludes call stop s o)
    (ho : ∀ e io, o = .done e io → e.kind ≠ .mergePoint) : m.Concludes call stop' s o := by
  obtain ⟨t, hr, ht⟩ := h
  refine ⟨t, hr.weaken hsub, ?_⟩
  cases ht with
  | arrives hs hi => exact absurd rfl (ho _ _ rfl)
  | halts hs hm =>
    refine .halts ?_ hm
    cases hs' : stop' t.loc with
    | false => rfl
    | true => rw [← hs, hsub _ hs']

/-- What the machine never comes to the end of, no walk does. -/
theorem Concludes.walkFrom_starved {s : Spot} (h : m.Concludes m.callee stop s .starved)
    (n : Nat) : m.walkFrom n stop s = .starved := by
  refine Classical.byContradiction (fun hn => ?_)
  have hfinal := final_eq_of_walkFrom hn
  rw [h.final_eq] at hfinal
  exact hn hfinal.symm

-- ============================================================================
-- Where execution changes hands makes no difference to calls
-- ============================================================================

/-- The machine with another rule for where execution changes hands. -/
def withHeaders (m : Machine) (h : Bool) : Machine := { m with loopHeadersOnly := h }

theorem walk_withHeaders (m : Machine) (h : Bool) (n depth : Nat) (stop : Location → Bool)
    (func : FuncId) (a : Activation) :
    (m.withHeaders h).walk n depth stop func a = m.walk n depth stop func a := by
  induction n generalizing depth stop func a with
  | zero => rfl
  | succ n ih =>
    have hcallee : (m.withHeaders h).calleeAt n depth = m.calleeAt n depth := by
      funext g args io
      unfold calleeAt
      cases Word.next? depth with
      | none => rfl
      | some d =>
        have hwalk : (fun g b => (m.withHeaders h).walk n d (fun _ => false) g b) =
            (fun g b => m.walk n d (fun _ => false) g b) := by
          funext g b
          exact ih d _ g b
        dsimp only
        rw [hwalk]
        rfl
    rw [walk_succ, walk_succ, hcallee]
    show (match m.program.instr? ⟨func, a.pc⟩ with
      | none => _
      | some i => _) = _
    cases m.program.instr? ⟨func, a.pc⟩ with
    | none => rfl
    | some i =>
      dsimp only
      split
      · rfl
      · show (m.withHeaders h).resumeStep n depth stop func a
          (m.exec (m.calleeAt n depth) ⟨func, a.pc⟩ i a.frame a.track.io) = _
        cases m.exec (m.calleeAt n depth) ⟨func, a.pc⟩ i a.frame a.track.io with
        | starved => rfl
        | failed e io => rfl
        | done st io =>
          simp only [resumeStep]
          cases st.flow with
          | next => exact ih _ _ _ _
          | goto pc => exact ih _ _ _ _
          | ret v => rfl

theorem call_withHeaders (m : Machine) (h : Bool) (n depth : Nat) :
    (m.withHeaders h).call n depth = m.call n depth := by
  have hwalk : (fun g a => (m.withHeaders h).walk n depth (fun _ => false) g a) =
      (fun g a => m.walk n depth (fun _ => false) g a) := by
    funext g a
    exact m.walk_withHeaders h n depth _ g a
  unfold call
  rw [hwalk]
  rfl

theorem callee_withHeaders (m : Machine) (h : Bool) : (m.withHeaders h).callee = m.callee := by
  funext g args io
  unfold callee
  simp only [call_withHeaders]

theorem Concludes.of_withHeaders {h : Bool} {s : Spot} {o : Outcome Console Exit}
    (hc : (m.withHeaders h).Concludes call stop s o) : m.Concludes call stop s o := by
  obtain ⟨s', hr, hs⟩ := hc
  refine ⟨s', hr, ?_⟩
  cases hs with
  | arrives hs hi => exact .arrives hs hi
  | halts hs hm => exact .halts hs hm

-- ============================================================================
-- Resuming the interpreter
-- ============================================================================

/-- What resuming at a spot comes to, whatever allowance it takes; it is starved
if the run never ends. -/
noncomputable def resumes (m : Machine) (s : Spot) : Outcome Console Exit :=
  Outcome.eventual (fun n => (m.resume n s.loc s.frame s.io).mapState Track.io)

theorem resume_below (m : Machine) (n : Nat) (loc : Location) (f : Frame) (io : Console) :
    (m.resume n loc f io).Below (m.resume (n + 1) loc f io) := by
  unfold resume
  cases m.program.functions[loc.func]? with
  | none => exact .refl _
  | some fn =>
    dsimp only
    split
    · exact m.walk_below n 0 m.stopsAt loc.func _
    · exact .refl _

/-- A segment that answers gives what resuming comes to. -/
theorem resumes_eq_of_resume {s : Spot} {n : Nat} (h : m.resume n s.loc s.frame s.io ≠ .starved) :
    m.resumes s = (m.resume n s.loc s.frame s.io).mapState Track.io := by
  have hchain : Outcome.Chain (fun n => (m.resume n s.loc s.frame s.io).mapState Track.io) :=
    fun n => (m.resume_below n s.loc s.frame s.io).mapState Track.io
  exact Outcome.eventual_eq hchain (fun hs => h (Outcome.mapState_eq_starved.mp hs))

/-- A frame of the right size is walked. -/
theorem mapState_resume {s : Spot} {fn : Function}
    (hf : m.program.functions[s.loc.func]? = some fn) (hs : s.frame.size = fn.registers) (n : Nat) :
    (m.resume n s.loc s.frame s.io).mapState Track.io = m.walkFrom n m.stopsAt s := by
  unfold resume walkFrom
  rw [hf]
  dsimp only
  rw [if_pos hs]

theorem resumes_eq_final {s : Spot} {fn : Function}
    (hf : m.program.functions[s.loc.func]? = some fn) (hs : s.frame.size = fn.registers) :
    m.resumes s = m.final m.stopsAt s := by
  unfold resumes final
  simp only [mapState_resume hf hs]

end Machine

end HotPath
