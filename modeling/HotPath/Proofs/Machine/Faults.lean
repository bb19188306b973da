/-
  HotPath.Proofs.Machine.Faults

  The faults that a machine can end with. `Machine.MayFail` lists them, and
  `Machine.failsBy_walk`, `Machine.failsBy_call` and `Machine.failsBy_resume` say
  that there are no others: in particular no index is ever out of its range, and
  a capability is missed only by an instruction that needs it.
-/
import HotPath.Proofs.Machine.Allowance

namespace HotPath

/-- All faults of an outcome are of a kind. -/
def Outcome.FailsBy {σ α : Type} (kind : Fault → Prop) (o : Outcome σ α) : Prop :=
  ∀ e s, o = .failed e s → kind e

namespace Outcome.FailsBy

variable {σ τ α β : Type} {kind : Fault → Prop}

theorem done (a : α) (s : σ) : (Outcome.done a s).FailsBy kind := nofun

theorem starved : (Outcome.starved : Outcome σ α).FailsBy kind := nofun

theorem failed {e : Fault} (h : kind e) (s : σ) : (Outcome.failed e s : Outcome σ α).FailsBy kind := by
  intro e' s' heq
  cases heq
  exact h

/-- A fault that is passed on with another state. -/
theorem fault {o : Outcome σ α} (h : o.FailsBy kind) {e : Fault} {s : σ} (ho : o = .failed e s)
    (t : τ) : (Outcome.failed e t : Outcome τ β).FailsBy kind :=
  .failed (h e s ho) t

end Outcome.FailsBy

namespace Machine

/-- The faults that a machine can end with. -/
inductive MayFail (m : Machine) : Fault → Prop where
  | runtime (cause : RuntimeFault) : MayFail m (.runtime cause)
  /-- An instruction needs a capability that the machine lacks. -/
  | gap {c : Capability} {loc : Location} {i : Instr} (hi : m.program.instr? loc = some i)
    (hn : i.needs = some c) (hc : m.capabilities.has c = false) : MayFail m (.gap c loc)
  | noInstr (loc : Location) : MayFail m (.program (.noInstr loc))
  | unknownFunction (func : FuncId) : MayFail m (.program (.unknownFunction func))
  | frameSize (loc : Location) (size : Nat) (name : String) (registers : Nat) :
    MayFail m (.program (.frameSize loc size name registers))
  | noReturn (loc : Location) : MayFail m (.program (.noReturn loc))
  | overflow : MayFail m .overflow

variable {m : Machine}

/-- Calls end with faults of the machine. -/
def Callee.FailsBy (call : Callee) (kind : Fault → Prop) : Prop :=
  ∀ func args io, (call func args io).FailsBy kind

theorem failsBy_perform {call : Callee} (hcall : call.FailsBy m.MayFail) (loc : Location) (i : Instr)
    (f : Frame) (io : Console) : (m.perform call loc i f io).FailsBy m.MayFail := by
  cases i with
  | binary op dst lhs rhs =>
    rw [perform]
    cases op.eval (f.get lhs) (f.get rhs) with
    | ok v => exact .done _ _
    | error e => exact .failed (.runtime e) io
  | getField dst obj index =>
    rw [perform]
    cases (f.get obj).field index with
    | ok v => exact .done _ _
    | error e => exact .failed (.runtime e) io
  | call dst func args =>
    rw [perform]
    cases hc : call func (args.map f.get) io with
    | done v io' => exact .done _ _
    | failed e io' => exact (hcall _ _ _).fault hc io'
    | starved => exact .starved
  | _ => exact .done _ _

theorem failsBy_exec {call : Callee} (hcall : call.FailsBy m.MayFail) {loc : Location} {i : Instr}
    (hi : m.program.instr? loc = some i) (f : Frame) (io : Console) :
    (m.exec call loc i f io).FailsBy m.MayFail := by
  unfold exec
  cases hn : i.needs with
  | none => exact failsBy_perform hcall loc i f io
  | some c =>
    dsimp only
    split
    · exact failsBy_perform hcall loc i f io
    · next hc => exact .failed (.gap hi hn (Bool.eq_false_iff.mpr hc)) io

theorem failsBy_enter {walk : FuncId → Activation → Outcome Track Exit}
    (hwalk : ∀ func a, (walk func a).FailsBy m.MayFail) (depth : Nat) :
    (m.enter walk depth).FailsBy m.MayFail := by
  intro func args io
  unfold enter
  split
  · exact .failed (.runtime _) io
  · cases m.program.functions[func]? with
    | none => exact .failed (.unknownFunction func) io
    | some fn =>
      dsimp only
      cases hw : walk func ⟨0, Frame.ofArgs fn.registers args, ⟨io, #[]⟩⟩ with
      | failed e t => exact (hwalk _ _).fault hw t.io
      | starved => exact .starved
      | done e t =>
        dsimp only
        cases e.kind with
        | returned v => exact .done _ _
        | mergePoint | promotion | fallback => exact .failed (.noReturn e.loc) t.io

/-- A walk ends with no other faults. -/
theorem failsBy_walk (m : Machine) (fuel depth : Nat) (stop : Location → Bool) (func : FuncId)
    (a : Activation) : (m.walk fuel depth stop func a).FailsBy m.MayFail := by
  induction fuel generalizing depth stop func a with
  | zero => exact .starved
  | succ n ih =>
    have hcallee : (m.calleeAt n depth).FailsBy m.MayFail := by
      intro g args io
      unfold calleeAt
      cases Word.next? depth with
      | none => exact .failed .overflow io
      | some d => exact failsBy_enter (fun g b => ih d _ g b) d g args io
    rw [walk_succ]
    cases hi : m.program.instr? ⟨func, a.pc⟩ with
    | none => exact .failed (.noInstr _) a.track
    | some i =>
      dsimp only
      split
      · exact .done _ _
      · have hexec := failsBy_exec hcallee hi a.frame a.track.io
        cases hx : m.exec (m.calleeAt n depth) ⟨func, a.pc⟩ i a.frame a.track.io with
        | failed e io => exact hexec.fault hx _
        | starved => exact .starved
        | done s io =>
          rw [resumeStep]
          cases s.flow with
          | next => exact ih _ _ _ _
          | goto pc => exact ih _ _ _ _
          | ret v => exact .done _ _

theorem failsBy_call (m : Machine) (fuel depth : Nat) :
    (m.call fuel depth).FailsBy m.MayFail :=
  failsBy_enter (fun func a => m.failsBy_walk fuel depth _ func a) depth

theorem failsBy_resume (m : Machine) (fuel : Nat) (loc : Location) (f : Frame) (io : Console) :
    (m.resume fuel loc f io).FailsBy m.MayFail := by
  unfold resume
  cases m.program.functions[loc.func]? with
  | none => exact .failed (.unknownFunction _) _
  | some fn =>
    dsimp only
    split
    · exact m.failsBy_walk fuel 0 _ _ _
    · exact .failed (.frameSize _ _ _ _) _

end Machine

end HotPath
