/-
  HotPath.Proofs.Machine.Allowance

  Allowances do not matter once they are large enough. A computation that
  answered under one allowance gives the same answer under every larger one,
  so each of them has an *eventual* outcome: its answer, or `starved` if no
  allowance is ever enough.

  The order `Outcome.Below` says that one outcome is another one cut short.
  Walks, calls and instructions are monotone in it (`Machine.walk_below`,
  `Machine.call_below`, `Machine.exec_below`).
-/
import HotPath.Machine

namespace HotPath

-- ============================================================================
-- Outcomes cut short
-- ============================================================================

namespace Outcome

variable {σ τ α : Type}

/-- One outcome is the other, unless its allowance ran out. -/
def Below (x y : Outcome σ α) : Prop := x = .starved ∨ x = y

theorem Below.refl (x : Outcome σ α) : x.Below x := Or.inr rfl

theorem Below.starved (y : Outcome σ α) : Below .starved y := Or.inl rfl

theorem Below.trans {x y z : Outcome σ α} (hxy : x.Below y) (hyz : y.Below z) : x.Below z := by
  rcases hxy with h | h
  · exact Or.inl h
  · rw [h]
    exact hyz

theorem Below.eq_of_ne {x y : Outcome σ α} (h : x.Below y) (hx : x ≠ .starved) : x = y :=
  h.resolve_left hx

/-- An outcome that ran out is above nothing but itself. -/
theorem Below.eq_starved {x y : Outcome σ α} (h : x.Below y) (hy : y = .starved) :
    x = .starved := by
  rcases h with hx | hx
  · exact hx
  · rw [hx, hy]

/-- Outcomes that grow with their allowance. -/
def Chain (x : Nat → Outcome σ α) : Prop := ∀ n, (x n).Below (x (n + 1))

theorem Chain.below {x : Nat → Outcome σ α} (hx : Chain x) {n k : Nat} (h : n ≤ k) :
    (x n).Below (x k) := by
  induction h with
  | refl => exact Below.refl _
  | step _ ih => exact ih.trans (hx _)

/-- What a computation gives under every allowance that is large enough. -/
noncomputable def eventual (x : Nat → Outcome σ α) : Outcome σ α :=
  open Classical in if h : ∃ n, x n ≠ .starved then x h.choose else .starved

theorem eventual_eq {x : Nat → Outcome σ α} (hx : Chain x) {n : Nat} (h : x n ≠ .starved) :
    eventual x = x n := by
  have hex : ∃ n, x n ≠ .starved := ⟨n, h⟩
  have hch : x hex.choose ≠ .starved := hex.choose_spec
  unfold eventual
  rw [dif_pos hex]
  rcases Nat.le_total n hex.choose with hle | hle
  · exact ((hx.below hle).eq_of_ne h).symm
  · exact (hx.below hle).eq_of_ne hch

theorem eventual_eq_starved {x : Nat → Outcome σ α} (h : ∀ n, x n = .starved) :
    eventual x = .starved := by
  unfold eventual
  rw [dif_neg]
  rintro ⟨n, hn⟩
  exact hn (h n)

theorem below_eventual {x : Nat → Outcome σ α} (hx : Chain x) (n : Nat) :
    (x n).Below (eventual x) := by
  by_cases h : x n = .starved
  · exact Or.inl h
  · exact Or.inr (eventual_eq hx h).symm

/-- From some allowance on, the outcome is the eventual one. -/
theorem exists_eq_eventual {x : Nat → Outcome σ α} (hx : Chain x) :
    ∃ n, ∀ k, n ≤ k → x k = eventual x := by
  by_cases hex : ∃ n, x n ≠ .starved
  · obtain ⟨n, hn⟩ := hex
    refine ⟨n, fun k hk => ?_⟩
    rw [eventual_eq hx hn]
    exact ((hx.below hk).eq_of_ne hn).symm
  · have hall : ∀ n, x n = .starved := by simpa using hex
    exact ⟨0, fun k _ => by rw [hall k, eventual_eq_starved hall]⟩

/-- Two computations end alike if, from some allowance on, one gives with one
step more what the other gives. -/
theorem eventual_congr_succ {x y : Nat → Outcome σ α} (hx : Chain x) (hy : Chain y) {n : Nat}
    (h : ∀ k, n ≤ k → x (k + 1) = y k) : eventual x = eventual y := by
  obtain ⟨a, ha⟩ := exists_eq_eventual hx
  obtain ⟨b, hb⟩ := exists_eq_eventual hy
  have hk := h (max n (max a b)) (by omega)
  rw [ha _ (by omega), hb _ (by omega)] at hk
  exact hk

/-- The outcome with only a part of the state it leaves. -/
def mapState (f : σ → τ) : Outcome σ α → Outcome τ α
  | .done a s => .done a (f s)
  | .failed e s => .failed e (f s)
  | .starved => .starved

theorem Below.mapState {x y : Outcome σ α} (h : x.Below y) (f : σ → τ) :
    (x.mapState f).Below (y.mapState f) := by
  rcases h with h | h
  · rw [h]
    exact Below.starved _
  · rw [h]
    exact Below.refl _

theorem mapState_eq_starved {x : Outcome σ α} {f : σ → τ} :
    x.mapState f = .starved ↔ x = .starved := by
  cases x <;> simp [Outcome.mapState]

-- ============================================================================
-- Conditions on outcomes
-- ============================================================================

/-- What an outcome has to meet: a condition on what it is done with, one on how
it fails, and one under which it may be starved. -/
def Meets (o : Outcome σ α) (done : α → σ → Prop) (failed : Fault → σ → Prop)
    (starved : Prop) : Prop :=
  match o with
  | .done a s => done a s
  | .failed e s => failed e s
  | .starved => starved

theorem Meets.imp {o : Outcome σ α} {done done' : α → σ → Prop} {failed failed' : Fault → σ → Prop}
    {starved starved' : Prop} (h : o.Meets done failed starved)
    (hd : ∀ a s, done a s → done' a s) (hf : ∀ e s, failed e s → failed' e s)
    (hs : starved → starved') : o.Meets done' failed' starved' := by
  cases o with
  | done a s => exact hd a s h
  | failed e s => exact hf e s h
  | starved => exact hs h

end Outcome

-- ============================================================================
-- The machine
-- ============================================================================

namespace Machine

/-- One way to call is another one cut short. -/
def Callee.Below (c d : Callee) : Prop := ∀ g args io, (c g args io).Below (d g args io)

theorem perform_below (m : Machine) {c d : Callee} (h : c.Below d) (loc : Location) (i : Instr)
    (f : Frame) (io : Console) : (m.perform c loc i f io).Below (m.perform d loc i f io) := by
  cases i with
  | call dst g args =>
    simp only [perform]
    rcases h g (args.map f.get) io with hc | hc
    · rw [hc]
      exact Outcome.Below.starved _
    · rw [hc]
      exact Outcome.Below.refl _
  | _ => exact Outcome.Below.refl _

theorem exec_below (m : Machine) {c d : Callee} (h : c.Below d) (loc : Location) (i : Instr)
    (f : Frame) (io : Console) : (m.exec c loc i f io).Below (m.exec d loc i f io) := by
  unfold exec
  cases i.needs with
  | none => exact m.perform_below h loc i f io
  | some cap =>
    by_cases hc : m.capabilities.has cap = true
    · simp only [hc, if_true]
      exact m.perform_below h loc i f io
    · simp only [hc]
      exact Outcome.Below.refl _

theorem enter_below (m : Machine) {w v : FuncId → Activation → Outcome Track Exit}
    (h : ∀ g a, (w g a).Below (v g a)) (depth : Nat) : (m.enter w depth).Below (m.enter v depth) := by
  intro g args io
  unfold enter
  by_cases hd : m.maxCallDepth < depth
  · simp only [hd, if_true]
    exact Outcome.Below.refl _
  · simp only [hd, if_false]
    cases m.program.functions[g]? with
    | none => exact Outcome.Below.refl _
    | some f =>
      rcases h g ⟨0, Frame.ofArgs f.registers args, ⟨io, #[]⟩⟩ with hw | hw
      · simp only [hw]
        exact Outcome.Below.starved _
      · simp only [hw]
        exact Outcome.Below.refl _

/-- How the frame at a depth calls, on an allowance. -/
def calleeAt (m : Machine) (fuel depth : Nat) : Callee := fun g args io =>
  match Word.next? depth with
  | none => .failed .overflow io
  | some d => m.enter (fun g b => m.walk fuel d (fun _ => false) g b) d g args io

theorem calleeAt_zero (m : Machine) (fuel : Nat) : m.calleeAt fuel 0 = m.call fuel 1 := rfl

/-- What a walk does after one instruction. -/
def resumeStep (m : Machine) (fuel depth : Nat) (stop : Location → Bool) (func : FuncId)
    (a : Activation) : Outcome Console Step → Outcome Track Exit
  | .done s io =>
    match s.flow with
    | .next => m.walk fuel depth stop func ⟨a.pc + 1, s.frame, ⟨io, note a.track.seen s.seen⟩⟩
    | .goto pc => m.walk fuel depth stop func ⟨pc, s.frame, ⟨io, note a.track.seen s.seen⟩⟩
    | .ret v => .done ⟨⟨func, a.pc⟩, .returned v, s.frame⟩ ⟨io, note a.track.seen s.seen⟩
  | .failed e io => .failed e ⟨io, a.track.seen⟩
  | .starved => .starved

theorem walk_succ (m : Machine) (n depth : Nat) (stop : Location → Bool) (func : FuncId)
    (a : Activation) :
    m.walk (n + 1) depth stop func a =
      match m.program.instr? ⟨func, a.pc⟩ with
      | none => .failed (.program (.noInstr ⟨func, a.pc⟩)) a.track
      | some i =>
        if stop ⟨func, a.pc⟩ then .done ⟨⟨func, a.pc⟩, .mergePoint, a.frame⟩ a.track
        else m.resumeStep n depth stop func a
          (m.exec (m.calleeAt n depth) ⟨func, a.pc⟩ i a.frame a.track.io) := by
  rw [walk]
  cases m.program.instr? ⟨func, a.pc⟩ with
  | none => rfl
  | some i =>
    dsimp only
    split
    · rfl
    · unfold resumeStep calleeAt
      rfl

/-- A walk that answered keeps its answer under a larger allowance. -/
theorem walk_below (m : Machine) (n depth : Nat) (stop : Location → Bool) (func : FuncId)
    (a : Activation) : (m.walk n depth stop func a).Below (m.walk (n + 1) depth stop func a) := by
  induction n generalizing depth stop func a with
  | zero => exact Outcome.Below.starved _
  | succ n ih =>
    have hcallee : (m.calleeAt n depth).Below (m.calleeAt (n + 1) depth) := by
      intro g args io
      unfold calleeAt
      cases Word.next? depth with
      | none => exact Outcome.Below.refl _
      | some d => exact m.enter_below (fun g b => ih d (fun _ => false) g b) d g args io
    rw [m.walk_succ n, m.walk_succ (n + 1)]
    cases m.program.instr? ⟨func, a.pc⟩ with
    | none => exact Outcome.Below.refl _
    | some i =>
      dsimp only
      by_cases hs : stop ⟨func, a.pc⟩ = true
      · simp only [hs, if_true]
        exact Outcome.Below.refl _
      · simp only [hs]
        rcases m.exec_below hcallee ⟨func, a.pc⟩ i a.frame a.track.io with hx | hx
        · rw [hx]
          exact Outcome.Below.starved _
        · rw [hx]
          -- the instruction answered, so only the rest of the walk can differ
          cases m.exec (m.calleeAt (n + 1) depth) ⟨func, a.pc⟩ i a.frame a.track.io with
          | starved => exact Outcome.Below.starved _
          | failed e io => exact Outcome.Below.refl _
          | done s io =>
            simp only [resumeStep]
            cases s.flow with
            | next => exact ih _ _ _ _
            | goto pc => exact ih _ _ _ _
            | ret v => exact Outcome.Below.refl _

theorem call_below (m : Machine) (n depth : Nat) :
    (m.call n depth).Below (m.call (n + 1) depth) :=
  m.enter_below (fun g a => m.walk_below n depth (fun _ => false) g a) depth

theorem call_chain (m : Machine) (depth : Nat) (g : FuncId) (args : List Value) (io : Console) :
    Outcome.Chain (fun n => m.call n depth g args io) := fun n => m.call_below n depth g args io

/-- How the top frame calls, whatever allowance it takes. -/
noncomputable def callee (m : Machine) : Callee := fun g args io =>
  Outcome.eventual (fun n => m.call n 1 g args io)

theorem call_below_callee (m : Machine) (n : Nat) : (m.call n 1).Below m.callee :=
  fun g args io => Outcome.below_eventual (m.call_chain 1 g args io) n

/-- From some allowance on, an instruction does what it does eventually. -/
theorem exists_exec_eq (m : Machine) (loc : Location) (i : Instr) (f : Frame) (io : Console) :
    ∃ n, ∀ k, n ≤ k → m.exec (m.call k 1) loc i f io = m.exec m.callee loc i f io := by
  cases i with
  | call dst g args =>
    obtain ⟨n, hn⟩ := Outcome.exists_eq_eventual (m.call_chain 1 g (args.map f.get) io)
    refine ⟨n, fun k hk => ?_⟩
    have hc : m.call k 1 g (args.map f.get) io = m.callee g (args.map f.get) io := hn k hk
    simp only [exec, perform, hc]
  | _ => exact ⟨0, fun k _ => rfl⟩

end Machine

end HotPath
