/-
  HotPath.Proofs.Region.Covers

  Operations that keep up with the machine. A run of operations *follows* the
  machine if, wherever the run gets, the machine gets there too: to the spot of
  the region that comes next, to the spot at which the trace is left, or to the
  same fault. `Region.Covers` says so of all runs of a list of operations; lists
  compose (`Region.Covers.append`), and guards, branches and exits cover a split
  or an end of the walk.

  Everything here is for one way of calling functions, the same on both sides.
-/
import HotPath.Proofs.Program.Checked
import HotPath.Proofs.Region.Spot

namespace HotPath

open Trace Trace.Progress

/-- The place at which an exit leaves is one for an exit of its kind. -/
def Exit.Suits (m : Machine) (e : Exit) : Prop :=
  match e.kind with
  | .mergePoint => m.stopsAt e.loc = true
  | .promotion reg => m.program.instr? e.loc = some (.promote reg)
  | .fallback => True
  | .returned v => ∃ src, m.program.instr? e.loc = some (.ret src) ∧ e.frame.get src = v

/-- A run keeps up with the machine, which started at a spot. -/
def Trace.Progress.Follows (m : Machine) (call : Machine.Callee) (start : Spot)
    (next : Option Region) : Progress → Prop
  | .going slots io => ∃ r ∈ next, m.Reaches call m.stopsAt start (r.spot slots io)
  | .left e io => m.Reaches call m.stopsAt start ⟨e.loc, e.frame, io⟩ ∧ e.Suits m
  | .failed e io => m.Concludes call m.stopsAt start (.failed e io)
  | .starved => m.Concludes call m.stopsAt start .starved

/-- Operations keep up with the machine from the spot of a region on, whatever
the slots hold. -/
def Region.Covers (m : Machine) (call : Machine.Callee) (size : Nat) (r : Region)
    (ops : List Op) (next : Option Region) : Prop :=
  ∀ slots io, size ≤ slots.size →
    (Op.runAll call slots io ops).Follows m call (r.spot slots io) next

variable {m : Machine} {call : Machine.Callee}

theorem Trace.Progress.Follows.of_reaches {start s : Spot} {next : Option Region} {p : Progress}
    (h : m.Reaches call m.stopsAt start s) (hp : p.Follows m call s next) :
    p.Follows m call start next := by
  cases p with
  | going slots io =>
    obtain ⟨r, hr, hs⟩ := hp
    exact ⟨r, hr, h.trans hs⟩
  | left e io => exact ⟨h.trans hp.1, hp.2⟩
  | failed e io => exact h.concludes hp
  | starved => exact h.concludes hp

-- ============================================================================
-- Moves at the spot of a region
-- ============================================================================

namespace Machine

/-- A machine with all capabilities performs every instruction. -/
theorem exec_eq_perform (hall : m.capabilities = .all) (loc : Location) (i : Instr) (f : Frame)
    (io : Console) : m.exec call loc i f io = m.perform call loc i f io := by
  unfold exec
  rw [hall]
  cases i.needs with
  | none => rfl
  | some c => cases c <;> rfl

theorem move_eq_perform (hall : m.capabilities = .all) {s : Spot} {i : Instr}
    (hi : m.program.instr? s.loc = some i) :
    m.move call s = Move.ofExec s.loc (m.perform call s.loc i s.frame s.io) := by
  rw [move_of_instr hi, exec_eq_perform hall]

/-- Only merge points stop a walk. -/
theorem stopsAt_eq_false {loc : Location} {i : Instr} (hi : m.program.instr? loc = some i)
    (hm : i.isMergePoint = false) : m.stopsAt loc = false :=
  Program.isDispatchPoint_eq_false hi hm

end Machine

namespace Region

variable {r r' : Region} {size : Nat} {next : Option Region}

/-- A spot is where the region stands and what it knows. -/
theorem spot_congr (hl : r'.loc = r.loc) (hr : r'.regs = r.regs) (slots : Array Value)
    (io : Console) : r'.spot slots io = r.spot slots io := by
  unfold spot
  rw [hl, hr]

/-- A split takes the machine to one of its arms. -/
theorem steps_branch {cond : Reg} {elsePc : Nat} {join : Option Nat} {b : Binding}
    (hi : m.program.instr? r.loc = some (.branch cond elsePc join)) (hb : r.regs[cond]? = some b)
    (slots : Array Value) (io : Console) :
    m.Steps call m.stopsAt (r.spot slots io)
      ((r.jump (if (b.cell slots).value.truthy then r.cursor + 1 else elsePc)).spot slots io) := by
  refine ⟨Machine.stopsAt_eq_false hi rfl, ?_⟩
  rw [Machine.move_of_instr (s := r.spot slots io) hi]
  have hv : (r.spot slots io).frame.get cond = (b.cell slots).value :=
    Binding.frame_get hb slots
  simp only [Machine.exec, Instr.needs, Machine.perform, Move.ofExec, hv]
  cases (b.cell slots).value.truthy with
  | true => rfl
  | false => rfl

-- ============================================================================
-- Lists of operations
-- ============================================================================

namespace Covers

theorem mono {size' : Nat} {ops : List Op} (h : size ≤ size')
    (hc : Covers m call size r ops next) : Covers m call size' r ops next :=
  fun slots io hs => hc slots io (Nat.le_trans h hs)

/-- What comes next matters only by its spots. -/
theorem next_congr {q q' : Region} {ops : List Op} (hl : q'.loc = q.loc) (hr : q'.regs = q.regs)
    (hc : Covers m call size r ops (some q)) : Covers m call size r ops (some q') := by
  intro slots io hs
  have h := hc slots io hs
  cases hrun : Op.runAll call slots io ops with
  | going slots' io' =>
    rw [hrun] at h
    obtain ⟨_, hq, hreach⟩ := h
    cases hq
    rw [← spot_congr hl hr] at hreach
    exact ⟨q', rfl, hreach⟩
  | left e io' => rwa [hrun] at h
  | failed e io' => rwa [hrun] at h
  | starved => rwa [hrun] at h

theorem nil : Covers m call size r [] (some r) :=
  fun _ _ _ => ⟨r, rfl, .refl⟩

/-- A region whose spots the machine reaches without an operation. -/
theorem of_steps {ops : List Op}
    (h : ∀ slots io, m.Steps call m.stopsAt (r.spot slots io) (r'.spot slots io))
    (hc : Covers m call size r' ops next) : Covers m call size r ops next :=
  fun slots io hs => (hc slots io hs).of_reaches (.single (h slots io))

/-- Operations that never run to their end cover whatever comes next. -/
theorem of_none {ops : List Op} (hc : Covers m call size r ops none) :
    Covers m call size r ops next := by
  intro slots io hs
  have h := hc slots io hs
  cases hr : Op.runAll call slots io ops with
  | going slots' io' =>
    rw [hr] at h
    obtain ⟨q, hq, -⟩ := h
    cases hq
  | left e io' => rwa [hr] at h
  | failed e io' => rwa [hr] at h
  | starved => rwa [hr] at h

/-- One list of operations after another. -/
theorem append {ops ops' : List Op} (hc : Covers m call size r ops (some r'))
    (hc' : Covers m call size r' ops' next) : Covers m call size r (ops ++ ops') next := by
  intro slots io hs
  have h := hc slots io hs
  rw [Op.runAll_append]
  cases hr : Op.runAll call slots io ops with
  | going slots' io' =>
    rw [hr] at h
    obtain ⟨q, hq, hreach⟩ := h
    cases hq
    have hsize := Op.hasSize_runAll call slots io ops slots' io' hr
    exact (hc' slots' io' (by omega)).of_reaches hreach
  | left e io' => rwa [hr] at h
  | failed e io' => rwa [hr] at h
  | starved => rwa [hr] at h

end Covers

-- ============================================================================
-- Exits
-- ============================================================================

/-- The walk may end where it stands with an exit of a kind. -/
inductive MayLeave (m : Machine) (r : Region) : LeaveKind → Prop where
  | mergePoint (h : m.stopsAt r.loc = true) : MayLeave m r .mergePoint
  | promotion {reg : Reg} (h : m.program.instr? r.loc = some (.promote reg)) :
    MayLeave m r (.promotion reg)
  | fallback : MayLeave m r .fallback
  | returned {src : Reg} {b : Binding} (h : m.program.instr? r.loc = some (.ret src))
    (hb : r.regs[src]? = some b) : MayLeave m r (.returned b.operand)

/-- Leaving hands over the spot at which the machine is. -/
theorem follows_leave {kind : LeaveKind} (hk : MayLeave m r kind) (hlen : r.regs.length ≤ Reg.limit)
    {slots : Array Value} (hb : ∀ b ∈ r.regs, b.Below slots.size) (io : Console) :
    (leave slots io (r.leaveAt r.loc kind)).Follows m call (r.spot slots io) next := by
  have hfill := Leave.fill_blank hlen hb
  cases hk with
  | mergePoint h =>
    simp only [leave, Leave.exit, leaveAt, hfill, Leave.exitKind]
    exact ⟨.refl, h⟩
  | promotion h =>
    simp only [leave, Leave.exit, leaveAt, hfill, Leave.exitKind]
    exact ⟨.refl, h⟩
  | fallback =>
    simp only [leave, Leave.exit, leaveAt, hfill, Leave.exitKind]
    exact ⟨.refl, trivial⟩
  | returned h hsrc =>
    have hval := Binding.eval_operand (hb _ (List.mem_of_getElem? hsrc))
    simp only [leave, Leave.exit, leaveAt, hfill, Leave.exitKind, hval]
    exact ⟨.refl, _, h, Binding.frame_get hsrc slots⟩

/-- An exit covers the end of a walk. -/
theorem covers_exit {kind : LeaveKind} (hk : MayLeave m r kind) (hlen : r.regs.length ≤ Reg.limit)
    (hb : ∀ b ∈ r.regs, b.Below size) :
    Covers m call size r [.exit (r.leaveAt r.loc kind)] none := by
  intro slots io hs
  rw [Op.runAll_singleton, Op.run]
  exact follows_leave hk hlen (fun b h => (hb b h).mono hs) io

-- ============================================================================
-- Splits
-- ============================================================================

section Split

variable {cond : Reg} {elsePc : Nat} {join : Option Nat} {b : Binding}

/-- A guard covers a split that keeps to one arm. -/
theorem covers_guard (hi : m.program.instr? r.loc = some (.branch cond elsePc join))
    (hb : r.regs[cond]? = some b) (hlen : r.regs.length ≤ Reg.limit)
    (hbelow : ∀ c ∈ r.regs, c.Below size) (taken : Bool) :
    Covers m call size r [.guard b.operand taken (r.leaveAt r.loc .fallback)]
      (some (r.keepArm b.operand taken elsePc)) := by
  intro slots io hs
  have hval := Binding.eval_operand ((hbelow b (List.mem_of_getElem? hb)).mono hs)
  have hstep : m.Steps call m.stopsAt _ _ := steps_branch hi hb slots io
  rw [Op.runAll_singleton, Op.run, hval]
  dsimp only [withValue]
  by_cases ht : (b.cell slots).value.truthy = taken
  · rw [if_pos ht]
    refine ⟨_, rfl, .single ?_⟩
    rw [ht] at hstep
    exact hstep
  · rw [if_neg ht]
    exact follows_leave .fallback hlen (fun c h => (hbelow c h).mono hs) io

/-- A branch covers a split whose arms are covered. -/
theorem covers_branch (hi : m.program.instr? r.loc = some (.branch cond elsePc join))
    (hb : r.regs[cond]? = some b) (hbelow : b.Below size) {thenOps elseOps : List Op}
    (ht : Covers m call size (r.jump (r.cursor + 1)) thenOps next)
    (he : Covers m call size (r.jump elsePc) elseOps next) :
    Covers m call size r [.branch b.operand thenOps elseOps] next := by
  intro slots io hs
  have hval := Binding.eval_operand (hbelow.mono hs)
  have hstep : m.Steps call m.stopsAt _ _ := steps_branch hi hb slots io
  rw [Op.runAll_singleton, Op.run, hval]
  dsimp only [withValue]
  cases hv : (b.cell slots).value.truthy with
  | true =>
    rw [hv] at hstep
    exact (ht slots io hs).of_reaches (.single hstep)
  | false =>
    rw [hv] at hstep
    exact (he slots io hs).of_reaches (.single hstep)

end Split

end Region

end HotPath
