/-
  HotPath.Proofs.Machine.Capabilities

  Machines that lack capabilities. Such a machine does what the machine that can do
  everything does, until it comes to an instruction that it cannot execute
  (`Machine.walk_upToGap`). By then the other one has executed the same
  instructions (`Machine.exists_after_of_gap`), so a gap takes nothing back and
  leaves nothing out.
-/
import HotPath.Proofs.Machine.Stack

namespace HotPath

-- ============================================================================
-- Outcomes up to a gap
-- ============================================================================

/-- One outcome is the other, unless a capability was missing. -/
def Outcome.UpToGap {σ α : Type} (x y : Outcome σ α) : Prop :=
  (∃ c loc s, x = .failed (.gap c loc) s) ∨ x = y

theorem Outcome.UpToGap.refl {σ α : Type} (x : Outcome σ α) : x.UpToGap x := Or.inr rfl

theorem Outcome.UpToGap.gap {σ α : Type} (c : Capability) (loc : Location) (s : σ)
    (y : Outcome σ α) : (Outcome.failed (.gap c loc) s).UpToGap y := Or.inl ⟨c, loc, s, rfl⟩

namespace Machine

/-- The machine with other capabilities. -/
def withCapabilities (m : Machine) (can : Capabilities) : Machine := { m with capabilities := can }

/-- One way to call is the other, unless a capability is missing. -/
def Callee.UpToGap (c d : Callee) : Prop := ∀ g args io, (c g args io).UpToGap (d g args io)

variable {m : Machine} {can : Capabilities}

@[simp] theorem program_withCapabilities (m : Machine) (can : Capabilities) :
    (m.withCapabilities can).program = m.program := rfl

@[simp] theorem maxCallDepth_withCapabilities (m : Machine) (can : Capabilities) :
    (m.withCapabilities can).maxCallDepth = m.maxCallDepth := rfl

theorem perform_upToGap {c d : Callee} (h : c.UpToGap d) (loc : Location) (i : Instr) (f : Frame)
    (io : Console) :
    ((m.withCapabilities can).perform c loc i f io).UpToGap (m.perform d loc i f io) := by
  cases i with
  | call dst g args =>
    simp only [perform]
    rcases h g (args.map f.get) io with ⟨cap, loc', io', hc⟩ | hc
    · rw [hc]
      exact .gap _ _ _ _
    · rw [hc]
      exact .refl _
  | _ => exact .refl _

theorem exec_upToGap (hall : m.capabilities = .all) {c d : Callee} (h : c.UpToGap d)
    (loc : Location) (i : Instr) (f : Frame) (io : Console) :
    ((m.withCapabilities can).exec c loc i f io).UpToGap (m.exec d loc i f io) := by
  unfold exec
  cases i.needs with
  | none => exact perform_upToGap h loc i f io
  | some cap =>
    rw [hall]
    simp only [Capabilities.has_all, if_true]
    split
    · exact perform_upToGap h loc i f io
    · exact .gap _ _ _ _

theorem enter_upToGap {w v : FuncId → Activation → Outcome Track Exit}
    (h : ∀ g a, (w g a).UpToGap (v g a)) (depth : Nat) :
    ((m.withCapabilities can).enter w depth).UpToGap (m.enter v depth) := by
  intro g args io
  unfold enter
  rw [program_withCapabilities, maxCallDepth_withCapabilities]
  split
  · exact .refl _
  · cases m.program.functions[g]? with
    | none => exact .refl _
    | some f =>
      rcases h g ⟨0, Frame.ofArgs f.registers args, ⟨io, #[]⟩⟩ with ⟨cap, loc, t, hw⟩ | hw
      · simp only [hw]
        exact .gap _ _ _ _
      · simp only [hw]
        exact .refl _

/-- A walk goes as with all capabilities, unless one of them is missing. -/
theorem walk_upToGap (hall : m.capabilities = .all) (n depth : Nat) (stop : Location → Bool)
    (func : FuncId) (a : Activation) :
    ((m.withCapabilities can).walk n depth stop func a).UpToGap (m.walk n depth stop func a) := by
  induction n generalizing depth stop func a with
  | zero => exact .refl _
  | succ n ih =>
    have hcallee : ((m.withCapabilities can).calleeAt n depth).UpToGap (m.calleeAt n depth) := by
      intro g args io
      unfold calleeAt
      cases Word.next? depth with
      | none => exact .refl _
      | some d => exact enter_upToGap (fun g b => ih d (fun _ => false) g b) d g args io
    rw [walk_succ, walk_succ, program_withCapabilities]
    cases m.program.instr? ⟨func, a.pc⟩ with
    | none => exact .refl _
    | some i =>
      dsimp only
      split
      · exact .refl _
      · rcases exec_upToGap hall hcallee ⟨func, a.pc⟩ i a.frame a.track.io with
          ⟨cap, loc, io, hx⟩ | hx
        · rw [hx]
          exact .gap _ _ _ _
        · rw [hx]
          -- the instruction was executed, so only the rest of the walk can differ
          cases m.exec (m.calleeAt n depth) ⟨func, a.pc⟩ i a.frame a.track.io with
          | starved => exact .refl _
          | failed e io => exact .refl _
          | done s io =>
            simp only [resumeStep]
            cases s.flow with
            | next => exact ih _ _ _ _
            | goto pc => exact ih _ _ _ _
            | ret v => exact .refl _

theorem resume_upToGap (hall : m.capabilities = .all) (fuel : Nat) (loc : Location) (f : Frame)
    (io : Console) :
    ((m.withCapabilities can).resume fuel loc f io).UpToGap (m.resume fuel loc f io) := by
  unfold resume
  rw [program_withCapabilities]
  cases m.program.functions[loc.func]? with
  | none => exact .refl _
  | some fn =>
    dsimp only
    split
    · exact walk_upToGap hall fuel 0 _ _ _
    · exact .refl _

-- ============================================================================
-- Executions up to a gap
-- ============================================================================

variable {x y : Execution}

/-- A frame moves as with all capabilities, unless one of them is missing. -/
theorem move_withCapabilities (hall : m.capabilities = .all) (call : Callee) (s : Spot) :
    (∃ c loc io, (m.withCapabilities can).move call s = .halt (.failed (.gap c loc) io)) ∨
      (m.withCapabilities can).move call s = m.move call s := by
  cases hi : m.program.instr? s.loc with
  | none =>
    unfold move
    rw [show (m.withCapabilities can).program.instr? s.loc = none from hi, hi]
    exact Or.inr rfl
  | some i =>
    rw [move_of_instr (m := m.withCapabilities can) hi, move_of_instr hi]
    rcases exec_upToGap hall (fun g args io => .refl (call g args io)) s.loc i s.frame s.io with
      ⟨c, loc, io, hx⟩ | hx
    · rw [hx]
      exact Or.inl ⟨c, loc, io, rfl⟩
    · rw [hx]
      exact Or.inr rfl

/-- What a machine that lacks capabilities does, the other one does too. -/
theorem stride_of_withCapabilities (hall : m.capabilities = .all)
    (h : (m.withCapabilities can).stride x = .on y) : m.stride x = .on y := by
  by_cases hcall : ∃ dst func args, m.program.instr? x.spot.loc = some (.call dst func args)
  · obtain ⟨dst, func, args, hi⟩ := hcall
    unfold stride at h ⊢
    rw [show (m.withCapabilities can).program.instr? x.spot.loc = _ from hi] at h
    rw [hi, hall]
    dsimp only at h ⊢
    split at h
    · exact h
    · cases h
  · have hcall : ∀ dst func args, m.program.instr? x.spot.loc ≠ some (.call dst func args) :=
      fun dst func args hi => hcall ⟨dst, func, args, hi⟩
    obtain ⟨s, cs⟩ := x
    rw [stride_eq_follow (m := m.withCapabilities can) hcall noCallee] at h
    rw [stride_eq_follow hcall noCallee]
    rcases move_withCapabilities hall noCallee s with ⟨c, loc, io, hm⟩ | hm
    · rw [hm] at h
      cases h
    · rw [← hm]
      exact h

theorem after_of_withCapabilities (hall : m.capabilities = .all) {n : Nat}
    (h : (m.withCapabilities can).after n x = some y) : m.after n x = some y := by
  induction n generalizing x with
  | zero => exact h
  | succ n ih =>
    cases hx : (m.withCapabilities can).stride x with
    | on z =>
      rw [after_succ_of_on hx] at h
      rw [after_succ_of_on (stride_of_withCapabilities hall hx)]
      exact ih h
    | halt o =>
      rw [after_succ_of_halt hx] at h
      cases h

/-- Where a capability is missing, the machine that has it has executed the same
instructions, and stands before the one that needs it. -/
theorem exists_after_of_gap (hall : m.capabilities = .all) {fuel : Nat} {stop : Location → Bool}
    {s : Spot} {c : Capability} {loc : Location} {io : Console}
    (h : (m.withCapabilities can).walkFrom fuel stop s = .failed (.gap c loc) io) :
    ∃ n x, m.after n ⟨s, []⟩ = some x ∧ x.spot.loc = loc ∧ x.spot.io = io ∧
      ∃ i, m.program.instr? loc = some i ∧ i.needs = some c ∧ can.has c = false := by
  have hstrides : (m.withCapabilities can).Strides stop ⟨s, []⟩ (.failed (.gap c loc) io) :=
    h ▸ strides_walkAt fuel stop s []
  obtain ⟨x, ⟨n, hn⟩, hfails⟩ := hstrides
  have hkeeps := (m.withCapabilities can).keeps_stride x
  rw [hfails] at hkeeps
  obtain ⟨hio, hgap⟩ := hkeeps
  obtain ⟨hloc, hneeds⟩ := hgap c loc rfl
  exact ⟨n, x, after_of_withCapabilities hall hn, hloc.symm, hio.symm, hneeds⟩

end Machine

end HotPath
