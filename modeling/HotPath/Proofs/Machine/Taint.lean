/-
  HotPath.Proofs.Machine.Taint

  What taint promises. Two frames are *alike* if they have the same taint and the
  same values in the registers without it. Whatever an instruction does to alike
  frames, on whatever consoles, leaves alike frames, and a promotion site that is
  passed in both reports the same value (`Machine.alike_of_perform`). Calls are the
  delicate case: the taint of a result is decided before the callee runs, from the
  effects that it may have, and a callee without effects returns the same from the
  same arguments.

  The *trail* of a frame is what it looks like after each of its instructions. As
  long as two trails pass the same instructions, they are alike step by step
  (`Machine.agree_trail`). Branches may be taken on tainted values, so nothing is
  said beyond the point where the trails part.
-/
import HotPath.Proofs.Machine.Quiet
import HotPath.Proofs.Region.Entry
import Mathlib.Data.List.Forall2

namespace HotPath

-- ============================================================================
-- Alike frames
-- ============================================================================

namespace Frame

/-- The same taint, and the same values where there is none. -/
structure Alike (f g : Frame) : Prop where
  size_eq : f.size = g.size
  isTainted_eq : ∀ r, f.isTainted r = g.isTainted r
  get_eq : ∀ r, f.isTainted r = false → f.get r = g.get r

namespace Alike

variable {f g : Frame}

theorem of_mask (hsize : f.size = g.size) (hmask : f.mask = g.mask)
    (hget : ∀ r, f.isTainted r = false → f.get r = g.get r) : f.Alike g :=
  ⟨hsize, isTainted_eq_of_mask hsize hmask, hget⟩

theorem mask_eq (h : f.Alike g) : f.mask = g.mask := mask_eq_of_isTainted h.size_eq h.isTainted_eq

theorem any_isTainted_eq (h : f.Alike g) (rs : List Reg) :
    rs.any f.isTainted = rs.any g.isTainted := by
  rw [funext h.isTainted_eq]

theorem map_get_eq (h : f.Alike g) {rs : List Reg} (hrs : rs.any f.isTainted = false) :
    rs.map f.get = rs.map g.get := by
  apply List.map_congr_left
  intro r hr
  apply h.get_eq
  simpa using List.any_eq_false.mp hrs r hr

/-- Writing a register keeps frames alike, if what is written differs under taint
only. -/
theorem set (h : f.Alike g) (dst : Reg) {v v' : Value} {t t' : Bool} (ht : t = t')
    (hv : t = false → v = v') : (f.set dst v t).Alike (g.set dst v' t') := by
  subst ht
  refine ⟨by rw [size_set, size_set, h.size_eq], fun r => ?_, fun r hr => ?_⟩
  · rw [isTainted_set, isTainted_set, h.size_eq, h.isTainted_eq]
  · rw [isTainted_set] at hr
    rw [get_set, get_set, ← h.size_eq]
    split at hr
    next hw => rw [if_pos hw, if_pos hw, hv hr]
    next hw => rw [if_neg hw, if_neg hw, h.get_eq r hr]

end Alike

end Frame

-- ============================================================================
-- One instruction
-- ============================================================================

/-- Whether this is a promotion site with its value. -/
def Observation.isPromotion : Observation → Bool
  | .promotion .. => true
  | .split .. => false

/-- The promotion sites that were passed, with their values, in order. -/
def Track.promotions (t : Track) : List Observation := t.seen.toList.filter Observation.isPromotion

namespace Machine

variable {m : Machine}

/-- Two steps that differ in tainted values only, and in how splits went. -/
structure Step.Alike (s s' : Step) : Prop where
  frame : s.frame.Alike s'.frame
  promotions_eq : s.seen.filter Observation.isPromotion = s'.seen.filter Observation.isPromotion

theorem promotions_note (io : Console) (seen : Array Observation) (o : Option Observation) :
    Track.promotions ⟨io, note seen o⟩ =
      Track.promotions ⟨io, seen⟩ ++ (o.filter Observation.isPromotion).toList := by
  cases o with
  | none => simp [Track.promotions, note]
  | some o =>
    cases h : o.isPromotion with
    | false => simp [Track.promotions, note, Option.filter, h]
    | true => simp [Track.promotions, note, Option.filter, h]

/-- An instruction takes alike frames to alike frames. -/
theorem alike_of_perform {n k : Nat} {loc : Location} {i : Instr} {f g : Frame}
    {io io₁ io' io₁' : Console} {s s' : Step} (h : f.Alike g)
    (hs : m.perform (m.call n 1) loc i f io = .done s io₁)
    (hs' : m.perform (m.call k 1) loc i g io' = .done s' io₁') : s.Alike s' := by
  cases i with
  | const dst v =>
    cases hs
    cases hs'
    exact ⟨h.set dst rfl (fun _ => rfl), rfl⟩
  | move dst src =>
    cases hs
    cases hs'
    exact ⟨h.set dst (h.isTainted_eq src) (h.get_eq src), rfl⟩
  | binary op dst lhs rhs =>
    simp only [perform] at hs hs'
    cases hv : op.eval (f.get lhs) (f.get rhs) with
    | error e => rw [hv] at hs; cases hs
    | ok v =>
      cases hv' : op.eval (g.get lhs) (g.get rhs) with
      | error e => rw [hv'] at hs'; cases hs'
      | ok v' =>
        rw [hv] at hs
        rw [hv'] at hs'
        cases hs
        cases hs'
        have ht : (f.isTainted lhs || f.isTainted rhs) = (g.isTainted lhs || g.isTainted rhs) := by
          rw [h.isTainted_eq, h.isTainted_eq]
        refine ⟨h.set dst ht (fun hclean => ?_), rfl⟩
        obtain ⟨hl, hr⟩ := Bool.or_eq_false_iff.mp hclean
        rw [h.get_eq lhs hl, h.get_eq rhs hr, hv'] at hv
        exact (Except.ok.inj hv).symm
  | input dst =>
    cases hs
    cases hs'
    exact ⟨h.set dst rfl (fun hclean => by cases hclean), rfl⟩
  | print src =>
    cases hs
    cases hs'
    exact ⟨h, rfl⟩
  | alloc dst fields =>
    cases hs
    cases hs'
    refine ⟨h.set dst (h.any_isTainted_eq fields) (fun hclean => ?_), rfl⟩
    rw [h.map_get_eq hclean]
  | getField dst obj index =>
    simp only [perform] at hs hs'
    cases hv : (f.get obj).field index with
    | error e => rw [hv] at hs; cases hs
    | ok v =>
      cases hv' : (g.get obj).field index with
      | error e => rw [hv'] at hs'; cases hs'
      | ok v' =>
        rw [hv] at hs
        rw [hv'] at hs'
        cases hs
        cases hs'
        refine ⟨h.set dst (h.isTainted_eq obj) (fun hclean => ?_), rfl⟩
        rw [h.get_eq obj hclean, hv'] at hv
        exact (Except.ok.inj hv).symm
  | call dst func args =>
    simp only [perform] at hs hs'
    cases hv : m.call n 1 func (args.map f.get) io with
    | failed e io => rw [hv] at hs; cases hs
    | starved => rw [hv] at hs; cases hs
    | done v io₂ =>
      cases hv' : m.call k 1 func (args.map g.get) io' with
      | failed e io => rw [hv'] at hs'; cases hs'
      | starved => rw [hv'] at hs'; cases hs'
      | done v' io₂' =>
        rw [hv] at hs
        rw [hv'] at hs'
        cases hs
        cases hs'
        have ht : (m.program.hasEffects func || args.any f.isTainted) =
            (m.program.hasEffects func || args.any g.isTainted) := by
          rw [h.any_isTainted_eq]
        refine ⟨h.set dst ht (fun hclean => ?_), rfl⟩
        -- an untainted result comes from a callee without effects and untainted arguments
        obtain ⟨hfunc, hargs⟩ := Bool.or_eq_false_iff.mp hclean
        rw [h.map_get_eq hargs] at hv
        exact call_value_eq hfunc hv hv'
  | jump target =>
    cases hs
    cases hs'
    exact ⟨h, rfl⟩
  | branch cond elsePc join =>
    cases hs
    cases hs'
    exact ⟨h, rfl⟩
  | mergePoint greens =>
    cases hs
    cases hs'
    exact ⟨h, rfl⟩
  | promote reg =>
    cases hs
    cases hs'
    refine ⟨h, ?_⟩
    cases ht : f.isTainted reg with
    | true => simp [← h.isTainted_eq reg, ht]
    | false => simp [← h.isTainted_eq reg, ht, h.get_eq reg ht]
  | ret src =>
    cases hs
    cases hs'
    exact ⟨h, rfl⟩

theorem alike_of_exec {n k : Nat} {loc : Location} {i : Instr} {f g : Frame}
    {io io₁ io' io₁' : Console} {s s' : Step} (h : f.Alike g)
    (hs : m.exec (m.call n 1) loc i f io = .done s io₁)
    (hs' : m.exec (m.call k 1) loc i g io' = .done s' io₁') : s.Alike s' := by
  unfold exec at hs hs'
  cases hc : i.needs with
  | none =>
    rw [hc] at hs hs'
    exact alike_of_perform h hs hs'
  | some c =>
    rw [hc] at hs hs'
    dsimp only at hs hs'
    split at hs
    next hhas =>
      rw [if_pos hhas] at hs'
      exact alike_of_perform h hs hs'
    next => cases hs

-- ============================================================================
-- Trails
-- ============================================================================

/-- What a frame looks like after one of its instructions. -/
structure Footstep where
  pc : Nat
  frame : Frame
  track : Track

/-- The same taint, the same values where there is none, and the same promotion
sites and values so far. -/
structure Footstep.Agrees (x y : Footstep) : Prop where
  size_eq : x.frame.size = y.frame.size
  mask_eq : x.frame.mask = y.frame.mask
  get_eq : ∀ r, x.frame.isTainted r = false → x.frame.get r = y.frame.get r
  promotions_eq : x.track.promotions = y.track.promotions

/-- The instructions that the top frame executes on an allowance before it stops,
returns, fails or starves, each with what it leaves. -/
def trail (m : Machine) : (fuel : Nat) → (stop : Location → Bool) → (func : FuncId) →
    Activation → List Footstep
  | 0, _, _, _ => []
  | n + 1, stop, func, a =>
    match m.program.instr? ⟨func, a.pc⟩ with
    | none => []
    | some i =>
      if stop ⟨func, a.pc⟩ then []
      else match m.exec (m.call n 1) ⟨func, a.pc⟩ i a.frame a.track.io with
        | .done s io =>
          let track : Track := ⟨io, note a.track.seen s.seen⟩
          match s.flow with
          | .next => ⟨a.pc, s.frame, track⟩ :: trail m n stop func ⟨a.pc + 1, s.frame, track⟩
          | .goto pc => ⟨a.pc, s.frame, track⟩ :: trail m n stop func ⟨pc, s.frame, track⟩
          | .ret _ => [⟨a.pc, s.frame, track⟩]
        | .failed .. => []
        | .starved => []

/-- The trail from an address. -/
def trailFrom (m : Machine) (fuel : Nat) (stop : Location → Bool) (loc : Location) (f : Frame)
    (io : Console) : List Footstep :=
  m.trail fuel stop loc.func ⟨loc.pc, f, ⟨io, #[]⟩⟩

/-- A trail goes on from where its first instruction leaves the frame. -/
theorem trail_eq_cons {n : Nat} {stop : Location → Bool} {func : FuncId} {a : Activation}
    {x : Footstep} {xs : List Footstep} (h : m.trail n stop func a = x :: xs) :
    ∃ k i s io, m.program.instr? ⟨func, a.pc⟩ = some i ∧
      m.exec (m.call k 1) ⟨func, a.pc⟩ i a.frame a.track.io = .done s io ∧
      x = ⟨a.pc, s.frame, ⟨io, note a.track.seen s.seen⟩⟩ ∧
      ∃ j pc, xs = m.trail j stop func ⟨pc, x.frame, x.track⟩ := by
  cases n with
  | zero => cases h
  | succ n =>
    rw [trail] at h
    cases hi : m.program.instr? ⟨func, a.pc⟩ with
    | none => rw [hi] at h; cases h
    | some i =>
      rw [hi] at h
      dsimp only at h
      split at h
      · cases h
      · cases hx : m.exec (m.call n 1) ⟨func, a.pc⟩ i a.frame a.track.io with
        | failed e io => rw [hx] at h; cases h
        | starved => rw [hx] at h; cases h
        | done s io =>
          rw [hx] at h
          refine ⟨n, i, s, io, rfl, hx, ?_⟩
          dsimp only at h
          cases hflow : s.flow with
          | next =>
            rw [hflow] at h
            cases h
            exact ⟨rfl, n, a.pc + 1, rfl⟩
          | goto pc =>
            rw [hflow] at h
            cases h
            exact ⟨rfl, n, pc, rfl⟩
          | ret v =>
            rw [hflow] at h
            cases h
            exact ⟨rfl, 0, a.pc, rfl⟩

theorem agree_trail {n k : Nat} {stop : Location → Bool} {func : FuncId} {a b : Activation}
    (hframe : a.frame.Alike b.frame) (hseen : a.track.promotions = b.track.promotions) (l : Nat)
    (hpcs : ((m.trail n stop func a).take l).map Footstep.pc =
      ((m.trail k stop func b).take l).map Footstep.pc) :
    List.Forall₂ Footstep.Agrees ((m.trail n stop func a).take l)
      ((m.trail k stop func b).take l) := by
  induction l generalizing n k a b with
  | zero => exact .nil
  | succ l ih =>
    cases ha : m.trail n stop func a with
    | nil =>
      rw [ha] at hpcs
      rw [List.map_eq_nil_iff.mp hpcs.symm]
      exact .nil
    | cons x xs =>
      cases hb : m.trail k stop func b with
      | nil =>
        rw [ha, hb] at hpcs
        cases hpcs
      | cons y ys =>
        rw [ha, hb] at hpcs
        simp only [List.take_succ_cons, List.map_cons, List.cons.injEq] at hpcs ⊢
        obtain ⟨_, i, s, io, hi, hs, hx, _, _, hxs⟩ := trail_eq_cons ha
        obtain ⟨_, i', s', io', hi', hs', hy, _, _, hys⟩ := trail_eq_cons hb
        have hpc : a.pc = b.pc := by
          rw [hx, hy] at hpcs
          exact hpcs.1
        rw [hpc] at hi hs
        rw [hi] at hi'
        cases hi'
        have hstep := alike_of_exec hframe hs hs'
        have halike : x.frame.Alike y.frame := by
          rw [hx, hy]
          exact hstep.frame
        have hprom : x.track.promotions = y.track.promotions := by
          rw [hx, hy]
          show Track.promotions ⟨io, _⟩ = Track.promotions ⟨io', _⟩
          rw [promotions_note, promotions_note, hstep.promotions_eq]
          exact congrArg (· ++ _) hseen
        refine .cons ⟨halike.size_eq, halike.mask_eq, halike.get_eq, hprom⟩ ?_
        rw [hxs, hys] at hpcs ⊢
        exact ih halike hprom hpcs.2

/-- A walk leaves what its last footstep leaves, or what it started from. -/
theorem exit_of_walk {n : Nat} {stop : Location → Bool} {func : FuncId} {a : Activation}
    {e : Exit} {t : Track} (h : m.walk n 0 stop func a = .done e t) {x : Footstep}
    (hframe : x.frame = a.frame) (htrack : x.track = a.track) :
    ((m.trail n stop func a).getLastD x).frame = e.frame ∧
      ((m.trail n stop func a).getLastD x).track = t := by
  induction n generalizing a x with
  | zero => cases h
  | succ n ih =>
    rw [m.walk_succ, calleeAt_zero] at h
    rw [trail]
    cases hi : m.program.instr? ⟨func, a.pc⟩ with
    | none => rw [hi] at h; cases h
    | some i =>
      rw [hi] at h
      dsimp only at h ⊢
      by_cases hstop : stop ⟨func, a.pc⟩ = true
      · rw [if_pos hstop] at h ⊢
        cases h
        exact ⟨hframe, htrack⟩
      · rw [if_neg hstop] at h ⊢
        cases hx : m.exec (m.call n 1) ⟨func, a.pc⟩ i a.frame a.track.io with
        | failed e io => rw [hx] at h; cases h
        | starved => rw [hx] at h; cases h
        | done s io =>
          rw [hx] at h
          simp only [resumeStep] at h
          dsimp only
          cases hflow : s.flow with
          | next =>
            rw [hflow] at h
            dsimp only
            rw [List.getLastD_cons]
            exact ih h rfl rfl
          | goto pc =>
            rw [hflow] at h
            dsimp only
            rw [List.getLastD_cons]
            exact ih h rfl rfl
          | ret v =>
            rw [hflow] at h
            cases h
            exact ⟨rfl, rfl⟩

theorem agree_getLastD {xs ys : List Footstep} (h : List.Forall₂ Footstep.Agrees xs ys)
    {x y : Footstep} (hxy : x.Agrees y) : (xs.getLastD x).Agrees (ys.getLastD y) := by
  induction h generalizing x y with
  | nil => exact hxy
  | cons hhead _ ih =>
    rw [List.getLastD_cons, List.getLastD_cons]
    exact ih hhead

theorem walk_of_resume {n : Nat} {loc : Location} {f : Frame} {io : Console} {e : Exit} {t : Track}
    (h : m.resume n loc f io = .done e t) :
    m.walk n 0 m.stopsAt loc.func ⟨loc.pc, f, ⟨io, #[]⟩⟩ = .done e t := by
  unfold resume at h
  cases hfn : m.program.functions[loc.func]? with
  | none => rw [hfn] at h; cases h
  | some fn =>
    rw [hfn] at h
    dsimp only at h
    split at h
    · exact h
    · cases h

/-- Taint is sound. Two runs of the top frame from the same address, with frames of
the same taint and the same untainted values, on any consoles and allowances: up to
where they part, they have the same taint, the same untainted values and the same
promotions after every instruction; and if they never part, so have their exits. -/
theorem taint_is_sound (m : Machine) (loc : Location) {f g : Frame} (hsize : f.size = g.size)
    (hmask : f.mask = g.mask) (hget : ∀ r, f.isTainted r = false → f.get r = g.get r)
    (n k : Nat) (io io' : Console) :
    (∀ stop l,
      ((m.trailFrom n stop loc f io).take l).map Footstep.pc =
        ((m.trailFrom k stop loc g io').take l).map Footstep.pc →
      List.Forall₂ Footstep.Agrees ((m.trailFrom n stop loc f io).take l)
        ((m.trailFrom k stop loc g io').take l)) ∧
    (∀ e e' t t', m.resume n loc f io = .done e t → m.resume k loc g io' = .done e' t' →
      (m.trailFrom n m.stopsAt loc f io).map Footstep.pc =
        (m.trailFrom k m.stopsAt loc g io').map Footstep.pc →
      Footstep.Agrees ⟨e.loc.pc, e.frame, t⟩ ⟨e'.loc.pc, e'.frame, t'⟩) := by
  have halike : f.Alike g := .of_mask hsize hmask hget
  have hnone : Track.promotions ⟨io, #[]⟩ = Track.promotions ⟨io', #[]⟩ := rfl
  refine ⟨fun stop l => agree_trail halike hnone l, fun e e' t t' h h' hpcs => ?_⟩
  -- past the end of both trails
  let l := max (m.trailFrom n m.stopsAt loc f io).length (m.trailFrom k m.stopsAt loc g io').length
  have htake : (m.trailFrom n m.stopsAt loc f io).take l = m.trailFrom n m.stopsAt loc f io :=
    List.take_of_length_le (Nat.le_max_left ..)
  have htake' : (m.trailFrom k m.stopsAt loc g io').take l = m.trailFrom k m.stopsAt loc g io' :=
    List.take_of_length_le (Nat.le_max_right ..)
  have hall : List.Forall₂ Footstep.Agrees (m.trailFrom n m.stopsAt loc f io)
      (m.trailFrom k m.stopsAt loc g io') := by
    rw [← htake, ← htake'] at hpcs ⊢
    exact agree_trail halike hnone l hpcs
  have hstart : Footstep.Agrees ⟨loc.pc, f, ⟨io, #[]⟩⟩ ⟨loc.pc, g, ⟨io', #[]⟩⟩ :=
    ⟨hsize, hmask, hget, hnone⟩
  have hlast := agree_getLastD hall hstart
  obtain ⟨hframe, htrack⟩ := exit_of_walk (walk_of_resume h) (x := ⟨loc.pc, f, ⟨io, #[]⟩⟩) rfl rfl
  obtain ⟨hframe', htrack'⟩ :=
    exit_of_walk (walk_of_resume h') (x := ⟨loc.pc, g, ⟨io', #[]⟩⟩) rfl rfl
  refine ⟨?_, ?_, ?_, ?_⟩
  · rw [← hframe, ← hframe']
    exact hlast.size_eq
  · rw [← hframe, ← hframe']
    exact hlast.mask_eq
  · rw [← hframe, ← hframe']
    exact hlast.get_eq
  · rw [← htrack, ← htrack']
    exact hlast.promotions_eq

/-- Reads a number, has another one doubled by a callee, promotes that and adds the two. -/
def mixing : Function :=
  { name := "mixing", params := 0, registers := 4,
    code := #[.input 0, .const 1 (.int 21), .call 2 1 [1], .promote 2, .binary .add 3 2 0,
      .promote 3, .ret 3] }

/-- Doubles a number. -/
def doubling : Function :=
  { name := "doubling", params := 1, registers := 1, code := #[.binary .add 0 0 0, .ret 0] }

/-- An interpreter for the two. -/
def mixingMachine : Machine :=
  { program :=
      { functions := #[mixing, doubling], entry := 0, facts := .ofFunctions #[mixing, doubling],
        faultless := by decide, facts_eq := rfl } }

/-- A blank frame with a tainted last register. -/
def mixingFrame (v : Value) : Frame :=
  ⟨[⟨.nil, false⟩, ⟨.nil, false⟩, ⟨.nil, false⟩, ⟨v, true⟩]⟩

/-- Different input and a different tainted register, and the same promotion of 42;
the sum is tainted, different and not reported. -/
theorem taint_is_sound_mixing :
    (mixingMachine.trailFrom 9 mixingMachine.stopsAt ⟨0, 0⟩ (mixingFrame .nil)
        ⟨[.int 5], []⟩).map (fun x => (x.frame.get 3, x.track.promotions)) =
      [(.nil, []), (.nil, []), (.nil, []), (.nil, [.promotion ⟨0, 3⟩ (.int 42)]),
        (.int 47, [.promotion ⟨0, 3⟩ (.int 42)]), (.int 47, [.promotion ⟨0, 3⟩ (.int 42)]),
        (.int 47, [.promotion ⟨0, 3⟩ (.int 42)])] ∧
    List.Forall₂ Footstep.Agrees
      ((mixingMachine.trailFrom 9 mixingMachine.stopsAt ⟨0, 0⟩ (mixingFrame .nil)
        ⟨[.int 5], []⟩).take 7)
      ((mixingMachine.trailFrom 12 mixingMachine.stopsAt ⟨0, 0⟩ (mixingFrame (.int 3))
        ⟨[.int 9], []⟩).take 7) ∧
    ∃ e e' t t', mixingMachine.resume 9 ⟨0, 0⟩ (mixingFrame .nil) ⟨[.int 5], []⟩ = .done e t ∧
      mixingMachine.resume 12 ⟨0, 0⟩ (mixingFrame (.int 3)) ⟨[.int 9], []⟩ = .done e' t' ∧
      Footstep.Agrees ⟨e.loc.pc, e.frame, t⟩ ⟨e'.loc.pc, e'.frame, t'⟩ := by
  have hget : ∀ r, (mixingFrame .nil).isTainted r = false →
      (mixingFrame .nil).get r = (mixingFrame (.int 3)).get r := by
    intro r hr
    match r with
    | 0 | 1 | 2 => rfl
    | 3 => cases hr
    | r + 4 => rfl
  have hsound := taint_is_sound mixingMachine ⟨0, 0⟩ (f := mixingFrame .nil)
    (g := mixingFrame (.int 3)) rfl rfl hget 9 12 ⟨[.int 5], []⟩ ⟨[.int 9], []⟩
  refine ⟨by decide +kernel, hsound.1 mixingMachine.stopsAt 7 (by decide +kernel), ?_⟩
  exact ⟨_, _, _, _, rfl, rfl, hsound.2 _ _ _ _ rfl rfl (by decide +kernel)⟩

end Machine

end HotPath
