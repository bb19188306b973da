/-
  HotPath.Proofs.Machine.Quiet

  Functions without effects. Calling one leaves the console as it is, and what the
  call comes to is the same for every console (`Machine.quiet_call`); so the value
  that it returns depends on its arguments only (`Machine.call_value_eq`). Whether a
  call comes to anything at all does not depend on the console either
  (`Machine.CallsTo.quiet`).

  A callee runs on an allowance and in frames of its own, so this is shown for
  walks first, by induction on the allowance: the functions that a function without
  effects calls have none either.
-/
import HotPath.Proofs.Machine.Stack
import HotPath.Proofs.Program.Checked
import HotPath.Proofs.Program.Effects

namespace HotPath

theorem Outcome.mapState_ofResult {σ τ α : Type} (r : Except Fault α) (s : σ) (f : σ → τ) :
    (ofResult r s).mapState f = ofResult r (f s) := by
  cases r with
  | ok a => rfl
  | error e => rfl

/-- A computation that leaves the console it is given, and comes to the same on every
console. -/
def Outcome.Quiet {α : Type} (x : Console → Outcome Console α) : Prop :=
  ∀ io io', x io = (x io').mapState (fun _ => io)

/-- Such a computation is done with the same on all consoles. -/
theorem Outcome.Quiet.done {α : Type} {x : Console → Outcome Console α} (h : Quiet x)
    {io io₁ io' io₁' : Console} {a a' : α} (hx : x io = .done a io₁) (hx' : x io' = .done a' io₁') :
    a = a' := by
  have heq := h io io'
  rw [hx, hx'] at heq
  exact (Outcome.done.inj heq).1

namespace Machine

variable {m : Machine}

/-- An instruction that neither reads input nor prints is quiet, if its call is. -/
theorem quiet_perform {call : Callee} {i : Instr} (hio : i.isIo = false)
    (hcall : ∀ dst g args, i = .call dst g args → ∀ vs, Outcome.Quiet (call g vs))
    (loc : Location) (f : Frame) : Outcome.Quiet (m.perform call loc i f) := by
  intro io io'
  cases i with
  | input | print => cases hio
  | const | move | alloc | jump | branch | mergePoint | promote | ret => rfl
  | binary op dst lhs rhs =>
    simp only [perform]
    cases op.eval (f.get lhs) (f.get rhs) with
    | ok v => rfl
    | error e => rfl
  | getField dst obj index =>
    simp only [perform]
    cases (f.get obj).field index with
    | ok v => rfl
    | error e => rfl
  | call dst g args =>
    simp only [perform]
    rw [hcall dst g args rfl (args.map f.get) io io']
    cases call g (args.map f.get) io' with
    | done v io₁ => rfl
    | failed e io₁ => rfl
    | starved => rfl

theorem quiet_exec {call : Callee} {i : Instr} (hio : i.isIo = false)
    (hcall : ∀ dst g args, i = .call dst g args → ∀ vs, Outcome.Quiet (call g vs))
    (loc : Location) (f : Frame) : Outcome.Quiet (m.exec call loc i f) := by
  intro io io'
  unfold exec
  cases i.needs with
  | none => exact quiet_perform hio hcall loc f io io'
  | some c =>
    dsimp only
    split
    · exact quiet_perform hio hcall loc f io io'
    · rfl

/-- A walk of a function without effects leaves the console, and comes to the same
on every console. -/
def QuietWalk (m : Machine) (n depth : Nat) (g : FuncId) : Prop :=
  ∀ (stop : Location → Bool) (pc : Nat) (f : Frame) (seen : Array Observation) (io io' : Console),
    m.walk n depth stop g ⟨pc, f, ⟨io, seen⟩⟩ =
      (m.walk n depth stop g ⟨pc, f, ⟨io', seen⟩⟩).mapState (fun t => ⟨io, t.seen⟩)

theorem quiet_enter {n depth : Nat} {g : FuncId} (hwalk : m.QuietWalk n depth g)
    (args : List Value) :
    Outcome.Quiet (m.enter (fun g a => m.walk n depth (fun _ => false) g a) depth g args) := by
  intro io io'
  unfold enter
  split
  · rfl
  · cases m.program.functions[g]? with
    | none => rfl
    | some fn =>
      dsimp only
      rw [hwalk (fun _ => false) 0 (Frame.ofArgs fn.registers args) #[] io io']
      cases m.walk n depth (fun _ => false) g ⟨0, Frame.ofArgs fn.registers args, ⟨io', #[]⟩⟩ with
      | starved => rfl
      | failed e t => rfl
      | done e t =>
        simp only [Outcome.mapState]
        cases e.kind with
        | returned v => rfl
        | mergePoint | promotion | fallback => rfl

theorem quiet_walk (n depth : Nat) {g : FuncId} (hg : m.program.hasEffects g = false) :
    m.QuietWalk n depth g := by
  induction n generalizing depth g with
  | zero => exact fun _ _ _ _ _ _ => rfl
  | succ n ih =>
    intro stop pc f seen io io'
    rw [m.walk_succ, m.walk_succ]
    cases hi : m.program.instr? ⟨g, pc⟩ with
    | none => rfl
    | some i =>
      obtain ⟨fn, hfn, hcode⟩ := Program.instr?_eq_some.mp hi
      have hcallee : ∀ dst func args, i = .call dst func args →
          ∀ vs, Outcome.Quiet (m.calleeAt n depth func vs) := by
        rintro dst func args rfl vs
        have hfunc := Program.hasEffects_callee hfn hg hcode
        intro io io'
        unfold calleeAt
        cases Word.next? depth with
        | none => rfl
        | some d => exact quiet_enter (ih d hfunc) vs io io'
      have hexec : Outcome.Quiet (m.exec (m.calleeAt n depth) ⟨g, pc⟩ i f) :=
        quiet_exec (Program.isIo_eq_false hfn hg hcode) hcallee ⟨g, pc⟩ f
      dsimp only
      split
      · rfl
      · rw [hexec io io']
        cases m.exec (m.calleeAt n depth) ⟨g, pc⟩ i f io' with
        | starved => rfl
        | failed e io₁ => rfl
        | done s io₁ =>
          simp only [Outcome.mapState, resumeStep]
          cases s.flow with
          | next => exact ih depth hg stop _ _ _ io io₁
          | goto pc => exact ih depth hg stop _ _ _ io io₁
          | ret v => rfl

/-- A call of a function without effects leaves the console, and comes to the same on
every console. -/
theorem quiet_call (n depth : Nat) {g : FuncId} (hg : m.program.hasEffects g = false)
    (args : List Value) : Outcome.Quiet (m.call n depth g args) :=
  quiet_enter (quiet_walk n depth hg) args

/-- What a function without effects returns depends on its arguments only, neither on
the console nor on the allowance. -/
theorem call_value_eq {n k depth : Nat} {g : FuncId} (hg : m.program.hasEffects g = false)
    {args : List Value} {io io₁ io' io₁' : Console} {v v' : Value}
    (h : m.call n depth g args io = .done v io₁) (h' : m.call k depth g args io' = .done v' io₁') :
    v = v' := by
  -- under the larger allowance, both calls are done with what they were done with
  have hbig : m.call (max n k) depth g args io = .done v io₁ := by
    rw [← ((m.call_chain depth g args io).below (Nat.le_max_left n k)).eq_of_ne (by simp [h])]
    exact h
  have hbig' : m.call (max n k) depth g args io' = .done v' io₁' := by
    rw [← ((m.call_chain depth g args io').below (Nat.le_max_right n k)).eq_of_ne (by simp [h'])]
    exact h'
  exact (quiet_call (max n k) depth hg args).done hbig hbig'

-- ============================================================================
-- Calls that come to an end
-- ============================================================================

/-- A call comes to a value or a fault, on some allowance, and leaves a console. -/
def CallsTo (m : Machine) (depth : Nat) (g : FuncId) (args : List Value) (io : Console)
    (r : Except Fault Value) (left : Console) : Prop :=
  ∃ n, m.call n depth g args io = .ofResult r left

namespace CallsTo

variable {depth : Nat} {g : FuncId} {args : List Value} {io left left' : Console}
  {r r' : Except Fault Value}

/-- A call comes to one end at most. -/
theorem unique (h : m.CallsTo depth g args io r left) (h' : m.CallsTo depth g args io r' left') :
    r = r' ∧ left = left' := by
  obtain ⟨n, hn⟩ := h
  obtain ⟨k, hk⟩ := h'
  -- under the larger allowance, both have come to their ends
  have hbig := ((m.call_chain depth g args io).below (Nat.le_max_left n k)).eq_of_ne
    (by rw [hn]; exact Outcome.ofResult_ne_starved r left)
  have hbig' := ((m.call_chain depth g args io).below (Nat.le_max_right n k)).eq_of_ne
    (by rw [hk]; exact Outcome.ofResult_ne_starved r' left')
  rw [hn] at hbig
  rw [hk] at hbig'
  exact Outcome.ofResult_inj (hbig.trans hbig'.symm)

/-- Without effects, a call leaves the console, and comes to the same end on every
other one. -/
theorem quiet (hg : m.program.hasEffects g = false) (h : m.CallsTo depth g args io r left)
    (io' : Console) : left = io ∧ m.CallsTo depth g args io' r io' := by
  obtain ⟨n, hn⟩ := h
  have hself := quiet_call n depth hg args io io
  have hother := quiet_call n depth hg args io' io
  rw [hn, Outcome.mapState_ofResult] at hself hother
  exact ⟨(Outcome.ofResult_inj hself).2, n, hother⟩

end CallsTo

/-- Functions without effects are pure. Whatever the depth, a call of one leaves the
console as it is, also where it fails. It comes to the same value or the same fault on any
two consoles, and comes to an end on one exactly if it does on the other. -/
theorem effectless_is_pure {g : FuncId} (hg : m.program.hasEffects g = false) (depth : Nat)
    (args : List Value) (io io' : Console) :
    (∀ r left, m.CallsTo depth g args io r left → left = io) ∧
    (∀ r r' left left', m.CallsTo depth g args io r left → m.CallsTo depth g args io' r' left' →
      r = r') ∧
    ((∃ r left, m.CallsTo depth g args io r left) ↔
      ∃ r left, m.CallsTo depth g args io' r left) := by
  refine ⟨fun r left h => (h.quiet hg io).1, ?_, ?_, ?_⟩
  · intro r r' left left' h h'
    exact ((h.quiet hg io').2.unique h').1
  · rintro ⟨r, left, h⟩
    exact ⟨r, io', (h.quiet hg io').2⟩
  · rintro ⟨r, left, h⟩
    exact ⟨r, io, (h.quiet hg io).2⟩

/-- Reads a number, asks whether it is even, and prints the answer. -/
def asking : Function :=
  { name := "asking", registers := 2, code := #[.input 0, .call 1 1 [0], .print 1, .ret 1] }

/-- Answers for zero, and passes any other number on, less one. -/
def passing (zero : Value) (next : FuncId) : Function :=
  { name := "passing", params := 1, registers := 2,
    code := #[.branch 0 5 none, .const 1 (.int 1), .binary .sub 0 0 1, .call 0 next [0], .ret 0,
      .const 0 zero, .ret 0] }

/-- An interpreter for the question, and for the two functions that answer it by calling
each other. -/
def askingMachine : Machine :=
  { program :=
      { functions := #[asking, passing (.int 1) 2, passing (.int 0) 1], entry := 0,
        facts := .ofFunctions #[asking, passing (.int 1) 2, passing (.int 0) 1],
        faultless := by decide, facts_eq := rfl } }

/-- The one who asks has effects, and those who answer have none. They answer alike
whatever there is to read, and so they do if they are asked about no number. -/
theorem effectless_is_pure_asking :
    askingMachine.program.hasEffects 0 = true ∧ askingMachine.program.hasEffects 1 = false ∧
    askingMachine.CallsTo 1 1 [.int 3] ⟨[.int 7], []⟩ (.ok (.int 0)) ⟨[.int 7], []⟩ ∧
    (∀ r left, askingMachine.CallsTo 1 1 [.int 3] ⟨[], [.nil]⟩ r left →
      r = .ok (.int 0) ∧ left = ⟨[], [.nil]⟩) ∧
    ∀ r left, askingMachine.CallsTo 1 1 [.tuple [.nil]] ⟨[], [.nil]⟩ r left →
      r = .error (.runtime (.operands .sub .tuple .int)) ∧ left = ⟨[], [.nil]⟩ := by
  have hg : askingMachine.program.hasEffects 1 = false := by decide +kernel
  have hodd : askingMachine.CallsTo 1 1 [.int 3] ⟨[.int 7], []⟩ (.ok (.int 0)) ⟨[.int 7], []⟩ :=
    ⟨20, rfl⟩
  have hfails : askingMachine.CallsTo 1 1 [.tuple [.nil]] ⟨[.int 7], []⟩
      (.error (.runtime (.operands .sub .tuple .int))) ⟨[.int 7], []⟩ :=
    ⟨9, rfl⟩
  refine ⟨by decide +kernel, hg, hodd, fun r left h => ?_, fun r left h => ?_⟩
  · have hpure := effectless_is_pure hg 1 [.int 3] ⟨[], [.nil]⟩ ⟨[.int 7], []⟩
    exact ⟨hpure.2.1 _ _ _ _ h hodd, hpure.1 _ _ h⟩
  · have hpure := effectless_is_pure hg 1 [.tuple [.nil]] ⟨[], [.nil]⟩ ⟨[.int 7], []⟩
    exact ⟨hpure.2.1 _ _ _ _ h hfails, hpure.1 _ _ h⟩

end Machine

end HotPath
