/-
  HotPath.Proofs.Machine.Safety

  Checked programs do not go wrong. Reading past the end of a frame gives nil and
  writing there does nothing, so a register that a frame does not have would never
  be noticed; here it is shown that there is none.

    * An instruction whose registers are in the frame neither reads nor writes what
      stands behind them (`Machine.exec_beside`).
    * Every frame of an execution, the waiting ones included, has the registers of
      its function and stands at an instruction of it. Instructions keep this so
      (`Execution.Fits.on`), and where it is so they fail only by what the program
      itself does (`Execution.Fits.failed`).
    * Walks and calls are executions, so they end with no other faults
      (`Machine.checked_never_goes_wrong`).

  There is one fault that no instruction is to blame for. The depth of a call is a word, so
  under the largest limit there is, frames can nest until the depth of the next one is no
  word any more (`Machine.plunge_overflows`). Under every other limit, the limit comes first.
-/
import HotPath.Proofs.Machine.Faults
import HotPath.Proofs.Machine.Stack
import HotPath.Proofs.Program.Checked

namespace HotPath

-- ============================================================================
-- What stands behind a frame
-- ============================================================================

namespace Frame

/-- The frame with more cells behind its registers. -/
def beside (f : Frame) (rest : List Cell) : Frame := ⟨f.cells ++ rest⟩

variable {f : Frame} {r : Reg} (rest : List Cell)

theorem get_beside (h : r < f.size) : (f.beside rest).get r = f.get r := by
  simp only [get, beside, List.getElem?_append_left (show r < f.cells.length from h)]

theorem isTainted_beside (h : r < f.size) : (f.beside rest).isTainted r = f.isTainted r := by
  simp only [isTainted, beside, List.getElem?_append_left (show r < f.cells.length from h)]

theorem set_beside (h : r < f.size) (v : Value) (tainted : Bool) :
    (f.beside rest).set r v tainted = (f.set r v tainted).beside rest := by
  simp only [set, beside, List.set_append_left _ _ (show r < f.cells.length from h)]

theorem map_get_beside {regs : List Reg} (h : ∀ r ∈ regs, r < f.size) :
    regs.map (f.beside rest).get = regs.map f.get :=
  List.map_congr_left (fun r hr => get_beside rest (h r hr))

theorem any_isTainted_beside {regs : List Reg} (h : ∀ r ∈ regs, r < f.size) :
    regs.any (f.beside rest).isTainted = regs.any f.isTainted := by
  rw [Bool.eq_iff_iff, List.any_eq_true, List.any_eq_true]
  constructor
  · rintro ⟨r, hr, ht⟩
    exact ⟨r, hr, by rwa [isTainted_beside rest (h r hr)] at ht⟩
  · rintro ⟨r, hr, ht⟩
    exact ⟨r, hr, by rwa [isTainted_beside rest (h r hr)]⟩

end Frame

/-- The outcome with another result. -/
def Outcome.map {σ α β : Type} (g : α → β) : Outcome σ α → Outcome σ β
  | .done a s => .done (g a) s
  | .failed e s => .failed e s
  | .starved => .starved

/-- What an instruction leaves, with more cells behind the registers. -/
def Machine.Step.beside (rest : List Cell) (s : Machine.Step) : Machine.Step :=
  { s with frame := s.frame.beside rest }

namespace Machine

variable {m : Machine} {call : Callee} {loc : Location} {i : Instr} {f : Frame} {io : Console}

theorem perform_beside (h : ∀ r ∈ i.reads ++ i.writes.toList, r < f.size) (rest : List Cell) :
    m.perform call loc i (f.beside rest) io =
      (m.perform call loc i f io).map (Step.beside rest) := by
  cases i with
  | const dst v | input dst =>
    have hdst : dst < f.size := h dst (by simp [Instr.writes])
    simp only [perform, Frame.set_beside rest hdst, Outcome.map, Step.beside]
  | move dst src =>
    have hdst : dst < f.size := h dst (by simp [Instr.writes])
    have hsrc : src < f.size := h src (by simp [Instr.reads])
    simp only [perform, Frame.get_beside rest hsrc, Frame.isTainted_beside rest hsrc,
      Frame.set_beside rest hdst, Outcome.map, Step.beside]
  | binary op dst lhs rhs =>
    have hdst : dst < f.size := h dst (by simp [Instr.writes])
    have hlhs : lhs < f.size := h lhs (by simp [Instr.reads])
    have hrhs : rhs < f.size := h rhs (by simp [Instr.reads])
    simp only [perform, Frame.get_beside rest hlhs, Frame.get_beside rest hrhs,
      Frame.isTainted_beside rest hlhs, Frame.isTainted_beside rest hrhs,
      Frame.set_beside rest hdst]
    cases op.eval (f.get lhs) (f.get rhs) <;> rfl
  | getField dst obj index =>
    have hdst : dst < f.size := h dst (by simp [Instr.writes])
    have hobj : obj < f.size := h obj (by simp [Instr.reads])
    simp only [perform, Frame.get_beside rest hobj, Frame.isTainted_beside rest hobj,
      Frame.set_beside rest hdst]
    cases (f.get obj).field index <;> rfl
  | alloc dst fields =>
    have hdst : dst < f.size := h dst (by simp [Instr.writes])
    have hfields : ∀ r ∈ fields, r < f.size := fun r hr => h r (by simp [Instr.reads, hr])
    simp only [perform, Frame.map_get_beside rest hfields, Frame.any_isTainted_beside rest hfields,
      Frame.set_beside rest hdst, Outcome.map, Step.beside]
  | call dst func args =>
    have hdst : dst < f.size := h dst (by simp [Instr.writes])
    have hargs : ∀ r ∈ args, r < f.size := fun r hr => h r (by simp [Instr.reads, hr])
    simp only [perform, Frame.map_get_beside rest hargs, Frame.any_isTainted_beside rest hargs,
      Frame.set_beside rest hdst]
    cases call func (args.map f.get) io <;> rfl
  | print src | ret src | branch src | promote src =>
    have hsrc : src < f.size := h src (by simp [Instr.reads])
    simp only [perform, Frame.get_beside rest hsrc, Frame.isTainted_beside rest hsrc, Outcome.map,
      Step.beside]
  | jump | mergePoint => rfl

/-- An instruction whose registers are in the frame neither reads nor writes what
stands behind them. -/
theorem exec_beside (h : ∀ r ∈ i.reads ++ i.writes.toList, r < f.size) (rest : List Cell) :
    m.exec call loc i (f.beside rest) io = (m.exec call loc i f io).map (Step.beside rest) := by
  simp only [exec, perform_beside h]
  split
  · rfl
  · split <;> rfl

end Machine

-- ============================================================================
-- The frame of a call
-- ============================================================================

namespace Frame

theorem cells_setArgs {f : Frame} {i : Nat} {args : List Value} (hlen : i + args.length ≤ f.size)
    (hsize : f.size ≤ 256) :
    (f.setArgs i args).cells =
      f.cells.take i ++ args.map (fun v => ⟨v, false⟩) ++ f.cells.drop (i + args.length) := by
  induction args generalizing i f with
  | nil => simp [setArgs]
  | cons v vs ih =>
    have hlen' : i + (vs.length + 1) ≤ f.size := hlen
    have hi : i < f.cells.length := by
      show i < f.size
      omega
    have htake : (f.cells.set i ⟨v, false⟩).take (i + 1) = f.cells.take i ++ [⟨v, false⟩] := by
      rw [List.take_add_one, List.take_set_of_le (Nat.le_refl i), List.getElem?_set_self hi]
      rfl
    have hdrop : (f.cells.set i ⟨v, false⟩).drop (i + 1 + vs.length) =
        f.cells.drop (i + (vs.length + 1)) := by
      rw [List.drop_set_of_lt (by omega), show i + 1 + vs.length = i + (vs.length + 1) by omega]
    rw [setArgs, ih (by rw [size_set]; omega) (by rw [size_set]; exact hsize),
      Reg.ofIndex_of_lt (by omega)]
    simp [set, htake, hdrop]

/-- Arguments that fit into the frame of a call are in its first registers, and nothing
is in the others. -/
theorem cells_ofArgs {registers : Nat} {args : List Value} (hargs : args.length ≤ registers)
    (hlimit : registers ≤ Reg.limit) :
    (ofArgs registers args).cells =
      args.map (fun v => ⟨v, false⟩) ++ List.replicate (registers - args.length) ⟨.nil, false⟩ := by
  have hblank : (blank registers).cells = List.replicate registers ⟨.nil, false⟩ := by
    rw [blank, Nat.min_eq_left hlimit]
  have hsize : (blank registers).size = registers := by
    rw [size, hblank, List.length_replicate]
  have hmax : Reg.limit = 64 := rfl
  rw [ofArgs, cells_setArgs (by omega) (by omega), hblank]
  simp

theorem size_ofArgs {registers : Nat} {args : List Value} (hargs : args.length ≤ registers)
    (hlimit : registers ≤ Reg.limit) : (ofArgs registers args).size = registers := by
  rw [size, cells_ofArgs hargs hlimit]
  simp
  omega

end Frame

-- ============================================================================
-- Where control goes
-- ============================================================================

/-- Control goes where the instruction says that it can go. -/
theorem Machine.target_mem_successors {m : Machine} {call : Machine.Callee} {loc : Location}
    {i : Instr} {f : Frame} {io io' : Console} {st : Machine.Step} {t : Nat}
    (h : m.perform call loc i f io = .done st io') (ht : st.flow.target? loc.pc = some t) :
    t ∈ i.successors loc.pc := by
  cases i with
  | binary op dst lhs rhs =>
    simp only [perform] at h
    split at h
    · cases h
      cases ht
      exact List.mem_singleton_self _
    · cases h
  | getField dst obj index =>
    simp only [perform] at h
    split at h
    · cases h
      cases ht
      exact List.mem_singleton_self _
    · cases h
  | call dst func args =>
    simp only [perform] at h
    split at h
    · cases h
      cases ht
      exact List.mem_singleton_self _
    · cases h
    · cases h
  | branch cond elsePc join =>
    cases h
    dsimp only at ht
    split at ht
    · cases ht
      simp [Instr.successors]
    · cases ht
      simp [Instr.successors]
  | ret src =>
    cases h
    cases ht
  | const | move | input | print | alloc | jump | mergePoint | promote =>
    cases h
    cases ht
    exact List.mem_singleton_self _

-- ============================================================================
-- Executions of checked programs
-- ============================================================================

/-- A frame of a function at one of its instructions. -/
structure Spot.Fits (p : Program) (fn : Function) (s : Spot) : Prop where
  function : p.functions[s.loc.func]? = some fn
  inCode : s.loc.pc < fn.code.size
  registers : s.frame.size = fn.registers

/-- A frame that waits at a call. -/
structure Caller.Fits (p : Program) (fn : Function) (c : Caller) : Prop where
  function : p.functions[c.loc.func]? = some fn
  atCall : ∃ func args, fn.code[c.loc.pc]? = some (.call c.dst func args)
  registers : c.frame.size = fn.registers

/-- All frames of an execution fit, and there are no more of them than may nest. -/
structure Execution.Fits (m : Machine) (x : Execution) : Prop where
  spot : ∃ fn, x.spot.Fits m.program fn
  callers : ∀ c ∈ x.callers, ∃ fn, c.Fits m.program fn
  depth : x.callers.length ≤ m.maxCallDepth

/-- The faults that a checked program can run into: those of its own doing. Frames nest
so deep that their number leaves its width only where as many may nest. -/
inductive Machine.MayRunInto (m : Machine) : Fault → Prop where
  | runtime (cause : RuntimeFault) : MayRunInto m (.runtime cause)
  | overflow (h : Word.max ≤ m.maxCallDepth) : MayRunInto m .overflow

theorem Machine.MayRunInto.eq_runtime {m : Machine} {fault : Fault} (h : m.MayRunInto fault)
    (hlimit : m.maxCallDepth < Word.max) : ∃ cause, fault = .runtime cause := by
  cases h with
  | runtime cause => exact ⟨cause, rfl⟩
  | overflow hwide => exact absurd hlimit (Nat.not_lt.mpr hwide)

namespace Spot.Fits

variable {m : Machine} {fn : Function} {s s' : Spot}

theorem exists_instr (hs : s.Fits m.program fn) :
    ∃ i, fn.code[s.loc.pc]? = some i ∧ m.program.instr? s.loc = some i := by
  have hpc := hs.inCode
  have hcode : fn.code[s.loc.pc]? = some fn.code[s.loc.pc] := Array.getElem?_eq_getElem hpc
  exact ⟨_, hcode, Program.instr?_eq_some.mpr ⟨fn, hs.function, hcode⟩⟩

theorem code_eq (hs : s.Fits m.program fn) {i : Instr} (hi : m.program.instr? s.loc = some i) :
    fn.code[s.loc.pc]? = some i := by
  obtain ⟨j, hcode, hj⟩ := hs.exists_instr
  rw [hi] at hj
  cases hj
  exact hcode

/-- The registers of the instruction are in the frame. -/
theorem register_lt (hs : s.Fits m.program fn) {i : Instr} (hi : m.program.instr? s.loc = some i) :
    ∀ r ∈ i.reads ++ i.writes.toList, r < s.frame.size := by
  intro r hr
  rw [hs.registers]
  exact Program.register_lt hs.function (hs.code_eq hi) hr

/-- A frame that goes on stands at another instruction of its function. -/
theorem move (hs : s.Fits m.program fn) {call : Machine.Callee} (h : m.move call s = .on s') :
    s'.Fits m.program fn := by
  obtain ⟨i, hcode, hi⟩ := hs.exists_instr
  rw [Machine.move_of_instr hi] at h
  obtain ⟨st, hexec, hfunc, htarget, hframe⟩ := Machine.ofExec_eq_on h
  have hperform := Machine.perform_of_exec hexec
  refine ⟨by rw [hfunc]; exact hs.function, ?_, ?_⟩
  · exact Program.successor_lt hs.function hcode (Machine.target_mem_successors hperform htarget)
  · rw [hframe, Machine.size_of_perform hperform, hs.registers]

end Spot.Fits

/-- A caller goes on after its call. -/
theorem Caller.Fits.resume {p : Program} {fn : Function} {c : Caller} (hc : c.Fits p fn) (v : Value)
    (io : Console) : (c.resume v io).Fits p fn := by
  obtain ⟨func, args, hcode⟩ := hc.atCall
  refine ⟨hc.function, ?_, ?_⟩
  · exact Program.successor_lt hc.function hcode (List.mem_singleton_self _)
  · show (c.frame.set c.dst v c.tainted).size = fn.registers
    rw [Frame.size_set, hc.registers]

/-- A call of a frame that fits enters one that does: it names a function, and its
arguments fit into the frame of that function. -/
theorem Spot.Fits.enters {m : Machine} {fn : Function} {s : Spot} (hs : s.Fits m.program fn)
    {dst : Reg} {func : FuncId} {args : List Reg}
    (hi : m.program.instr? s.loc = some (.call dst func args)) :
    ∃ callee, m.program.functions[func]? = some callee ∧ args.length = callee.params ∧
      callee.params ≤ callee.registers ∧ callee.registers ≤ Reg.limit ∧
      Spot.Fits m.program callee
        ⟨⟨func, 0⟩, Frame.ofArgs callee.registers (args.map s.frame.get), s.io⟩ := by
  obtain ⟨callee, hcallee, harity⟩ := Program.exists_callee hs.function (hs.code_eq hi)
  have hparams := Program.params_le_registers hcallee
  have hlimit := Program.registers_le_limit hcallee
  refine ⟨callee, hcallee, harity, hparams, hlimit, hcallee, Program.code_size_pos hcallee, ?_⟩
  exact Frame.size_ofArgs (by simpa [harity] using hparams) hlimit

namespace Machine

variable {m : Machine} {x y : Execution} {dst : Reg} {func : FuncId} {args : List Reg}

/-- A call that starts leaves its caller waiting below the frame of its function. -/
theorem startCall_eq_on (h : m.startCall x dst func args = .on y) :
    x.callers.length < m.maxCallDepth ∧ ∃ callee tainted,
      m.program.functions[func]? = some callee ∧
      y = ⟨⟨⟨func, 0⟩, Frame.ofArgs callee.registers (args.map x.spot.frame.get), x.spot.io⟩,
        ⟨x.spot.loc, x.spot.frame, dst, tainted⟩ :: x.callers⟩ := by
  unfold startCall Word.next? at h
  by_cases hword : x.callers.length < Word.max
  · simp only [if_pos hword] at h
    by_cases hdeep : m.maxCallDepth < x.callers.length + 1
    · simp [hdeep] at h
    · cases hcallee : m.program.functions[func]? with
      | none => simp [hdeep, hcallee] at h
      | some callee =>
        simp only [if_neg hdeep, hcallee, Stride.on.injEq] at h
        exact ⟨by omega, callee, _, rfl, h.symm⟩
  · simp [hword] at h

/-- A call of a function that there is fails only because it is too deep. -/
theorem startCall_eq_failed {callee : Function} {fault : Fault} {io : Console}
    (hcallee : m.program.functions[func]? = some callee)
    (h : m.startCall x dst func args = .halt (.failed fault io)) :
    (fault = .overflow ∧ Word.max ≤ x.callers.length) ∨
      fault = .runtime (.callDepth m.maxCallDepth) := by
  unfold startCall Word.next? at h
  by_cases hword : x.callers.length < Word.max
  · simp only [if_pos hword, hcallee] at h
    by_cases hdeep : m.maxCallDepth < x.callers.length + 1
    · simp only [if_pos hdeep, Stride.halt.injEq, Outcome.failed.injEq] at h
      exact Or.inr h.1.symm
    · simp [hdeep] at h
  · simp only [if_neg hword, Stride.halt.injEq, Outcome.failed.injEq] at h
    exact Or.inl ⟨h.1.symm, by omega⟩

end Machine

namespace Execution.Fits

variable {m : Machine} {x y : Execution}

/-- A call leads from an execution that fits to one that does, if it is not too deep. -/
theorem enters (hx : x.Fits m) {dst : Reg} {func : FuncId} {args : List Reg}
    (hi : m.program.instr? x.spot.loc = some (.call dst func args))
    (hdeep : x.callers.length < m.maxCallDepth) {callee : Function}
    (hcallee : m.program.functions[func]? = some callee) (tainted : Bool) :
    Execution.Fits m
      ⟨⟨⟨func, 0⟩, Frame.ofArgs callee.registers (args.map x.spot.frame.get), x.spot.io⟩,
        ⟨x.spot.loc, x.spot.frame, dst, tainted⟩ :: x.callers⟩ := by
  obtain ⟨fn, hspot⟩ := hx.spot
  obtain ⟨callee', hcallee', -, -, -, hbody⟩ := hspot.enters hi
  obtain rfl : callee = callee' := Option.some.inj (hcallee.symm.trans hcallee')
  refine ⟨⟨callee, hbody⟩, ?_, hdeep⟩
  intro c hc
  rcases List.mem_cons.mp hc with rfl | hc
  · exact ⟨fn, hspot.function, ⟨func, args, hspot.code_eq hi⟩, hspot.registers⟩
  · exact hx.callers c hc

/-- One instruction leads from an execution that fits to one that does. -/
theorem on (hx : x.Fits m) (h : m.stride x = .on y) : y.Fits m := by
  rcases Machine.stride_eq_on h with ⟨dst, func, args, hi, hstart⟩ | ⟨s, hmove, rfl⟩ |
    ⟨c, cs, v, io, hcs, rfl⟩
  · obtain ⟨hdeep, callee, tainted, hcallee, rfl⟩ := Machine.startCall_eq_on hstart
    exact hx.enters hi hdeep hcallee tainted
  · obtain ⟨fn, hspot⟩ := hx.spot
    exact ⟨⟨fn, hspot.move hmove⟩, hx.callers, hx.depth⟩
  · have hcallers := hx.callers
    have hdepth := hx.depth
    rw [hcs] at hcallers hdepth
    obtain ⟨fn, hc⟩ := hcallers c List.mem_cons_self
    exact ⟨⟨fn, hc.resume v io⟩, fun d hd => hcallers d (List.mem_cons_of_mem c hd),
      Nat.le_of_succ_le hdepth⟩

/-- An execution that fits fails only by what the program does. -/
theorem failed (hall : m.capabilities = .all) (hx : x.Fits m) {fault : Fault} {io : Console}
    (h : m.stride x = .halt (.failed fault io)) : m.MayRunInto fault := by
  obtain ⟨fn, hspot⟩ := hx.spot
  rcases Machine.stride_eq_failed h with ⟨dst, func, args, hi, hstart⟩ | hmove
  · obtain ⟨callee, hcallee, -⟩ := hspot.enters hi
    have hfails := hstart (by rw [hall]; rfl)
    rcases Machine.startCall_eq_failed hcallee hfails with ⟨rfl, hwide⟩ | rfl
    · exact .overflow (Nat.le_trans hwide hx.depth)
    · exact .runtime _
  · obtain ⟨i, -, hi⟩ := hspot.exists_instr
    rw [Machine.move_of_instr hi] at hmove
    obtain ⟨-, hgap | ⟨cause, rfl⟩⟩ := Machine.exec_eq_failed (Machine.ofExec_eq_failed hmove)
    · obtain ⟨c, -, -, hc⟩ := hgap
      simp [hall] at hc
    · exact .runtime cause

theorem gets (hx : x.Fits m) (h : m.Gets x y) : y.Fits m :=
  h.keeps (fun hs hy => hy.on hs) hx

/-- A walk from where an execution stands fails only by what the program does. -/
theorem failsBy_walkAt (hall : m.capabilities = .all) (hx : x.Fits m) (n : Nat)
    (stop : Location → Bool) :
    (m.walkAt n x.callers.length stop x.spot).FailsBy m.MayRunInto := by
  intro fault io hw
  have hstrides := Machine.strides_walkAt (m := m) n stop x.spot x.callers
  rw [hw] at hstrides
  obtain ⟨y, hy, hfails⟩ := hstrides
  exact (hx.gets hy).failed hall hfails

/-- A call that is not stopped by a fault has returned. -/
theorem failsBy_returned {kind : Fault → Prop} {n : Nat}
    (h : (m.walkAt n x.callers.length (fun _ => false) x.spot).FailsBy kind) :
    (m.walkAt n x.callers.length (fun _ => false) x.spot).returned.FailsBy kind := by
  have hstrides := Machine.strides_walkAt (m := m) n (fun _ => false) x.spot x.callers
  cases hw : m.walkAt n x.callers.length (fun _ => false) x.spot with
  | starved => exact .starved
  | failed fault io => exact h.fault hw io
  | done e io =>
    rw [hw] at hstrides
    obtain ⟨-, hends⟩ := hstrides
    obtain ⟨src, -, he⟩ := hends.eq_returned
    rw [he]
    exact .done _ _

/-- A call that is made where an execution stands fails only by what the program does. -/
theorem failsBy_call (hall : m.capabilities = .all) (hx : x.Fits m) {dst : Reg} {func : FuncId}
    {args : List Reg} (hi : m.program.instr? x.spot.loc = some (.call dst func args)) (n : Nat) :
    (m.call n (x.callers.length + 1) func (args.map x.spot.frame.get) x.spot.io).FailsBy
      m.MayRunInto := by
  obtain ⟨fn, hspot⟩ := hx.spot
  obtain ⟨callee, hcallee, -⟩ := hspot.enters hi
  by_cases hdepth : x.callers.length + 1 ≤ m.maxCallDepth
  · -- the body of the callee runs over the frame that waits for it
    have hfits := hx.enters hi hdepth hcallee false
    rw [Machine.call_eq_returned hdepth hcallee]
    exact failsBy_returned (hfits.failsBy_walkAt hall n _)
  · intro fault io h
    simp only [Machine.call, Machine.enter, if_pos (Nat.lt_of_not_le hdepth)] at h
    cases h
    exact .runtime _

end Execution.Fits

-- ============================================================================
-- What a checked program cannot do
-- ============================================================================

/-- Where an execution stands, nothing is out of place. -/
structure Execution.Sound (m : Machine) (x : Execution) : Prop where
  /-- The innermost frame has the registers of its function. -/
  frame : ∃ fn, m.program.functions[x.spot.loc.func]? = some fn ∧
    x.spot.frame.size = fn.registers
  /-- There is an instruction. Its registers are in the frame, and it neither reads nor
  writes what stands behind them. -/
  instr : ∃ i, m.program.instr? x.spot.loc = some i ∧
    (∀ r ∈ i.reads ++ i.writes.toList, r < x.spot.frame.size) ∧
    ∀ call rest, m.exec call x.spot.loc i (x.spot.frame.beside rest) x.spot.io =
      (m.exec call x.spot.loc i x.spot.frame x.spot.io).map (Machine.Step.beside rest)
  /-- A frame that waits has the register for the result. -/
  waiting : ∀ c ∈ x.callers, c.dst < c.frame.size
  /-- A call names a function. Every argument gets a register of the frame that is
  entered, and the call fails only by what the program does. -/
  call : ∀ dst func args, m.program.instr? x.spot.loc = some (.call dst func args) →
    ∃ callee, m.program.functions[func]? = some callee ∧ args.length ≤ callee.registers ∧
      (Frame.ofArgs callee.registers (args.map x.spot.frame.get)).cells =
        args.map (fun r => ⟨x.spot.frame.get r, false⟩) ++
          List.replicate (callee.registers - args.length) ⟨.nil, false⟩ ∧
      ∀ fuel, (Machine.call m fuel (x.callers.length + 1) func (args.map x.spot.frame.get)
        x.spot.io).FailsBy m.MayRunInto

theorem Execution.Fits.sound {m : Machine} {x : Execution} (hall : m.capabilities = .all)
    (hx : x.Fits m) : x.Sound m := by
  obtain ⟨fn, hspot⟩ := hx.spot
  obtain ⟨i, -, hi⟩ := hspot.exists_instr
  refine ⟨⟨fn, hspot.function, hspot.registers⟩, ⟨i, hi, hspot.register_lt hi, ?_⟩, ?_, ?_⟩
  · intro call rest
    exact Machine.exec_beside (hspot.register_lt hi) rest
  · intro c hc
    obtain ⟨fn', hfits⟩ := hx.callers c hc
    obtain ⟨func, args, hcode⟩ := hfits.atCall
    rw [hfits.registers]
    exact Program.register_lt hfits.function hcode (by simp [Instr.writes])
  · intro dst func args hcall
    obtain ⟨callee, hcallee, harity, hparams, hlimit, -⟩ := hspot.enters hcall
    refine ⟨callee, hcallee, by omega, ?_, hx.failsBy_call hall hcall⟩
    rw [Frame.cells_ofArgs (by simp; omega) hlimit]
    simp

namespace Machine

/-- Checked programs do not go wrong. Whatever function of the program is resumed, at
whatever place in its code and on whatever frame of its size: it ends where its
execution has come to, and fails only by what the program itself does; and wherever
the execution comes to, in this frame or in one that it has called, nothing is out of
place. If fewer frames may nest than a word can count, all that is left are the faults of
single instructions and of calls beyond the limit. -/
theorem checked_never_goes_wrong {m : Machine} (hall : m.capabilities = .all) {loc : Location}
    {fn : Function} (hfn : m.program.functions[loc.func]? = some fn) (hpc : loc.pc < fn.code.size)
    {f : Frame} (hsize : f.size = fn.registers) (io : Console) :
    (∀ fuel, (m.resume fuel loc f io).Meets
      (fun e t => m.Gets ⟨⟨loc, f, io⟩, []⟩ ⟨⟨e.loc, e.frame, t.io⟩, []⟩)
      (fun fault t => m.MayRunInto fault ∧
        ∃ x, m.Gets ⟨⟨loc, f, io⟩, []⟩ x ∧ m.stride x = .halt (.failed fault t.io))
      True) ∧
    (∀ x, m.Gets ⟨⟨loc, f, io⟩, []⟩ x → x.Sound m) ∧
    (m.maxCallDepth < Word.max → ∀ fault, m.MayRunInto fault → ∃ cause, fault = .runtime cause) := by
  have hfits : Execution.Fits m ⟨⟨loc, f, io⟩, []⟩ :=
    ⟨⟨fn, hfn, hpc, hsize⟩, (fun c hc => by cases hc), Nat.zero_le _⟩
  refine ⟨fun fuel => ?_, fun x hx => (hfits.gets hx).sound hall,
    fun hlimit fault h => h.eq_runtime hlimit⟩
  have hstrides : m.Strides m.stopsAt ⟨⟨loc, f, io⟩, []⟩
      ((m.resume fuel loc f io).mapState Track.io) := by
    rw [mapState_resume (s := ⟨loc, f, io⟩) hfn hsize fuel]
    exact strides_walkAt fuel m.stopsAt ⟨loc, f, io⟩ []
  cases hr : m.resume fuel loc f io with
  | starved => trivial
  | done e t =>
    rw [hr] at hstrides
    exact hstrides.1
  | failed fault t =>
    rw [hr] at hstrides
    obtain ⟨x, hx, hfails⟩ := hstrides
    exact ⟨(hfits.gets hx).failed hall hfails, x, hx, hfails⟩

/-- Makes two numbers and has a callee divide them. -/
def sharing : Function :=
  { name := "sharing", registers := 3,
    code := #[.const 0 (.int 6), .const 1 (.int 0), .call 2 1 [0, 1], .ret 2] }

/-- Divides two numbers. -/
def dividing : Function :=
  { name := "dividing", params := 2, registers := 2, code := #[.binary .div 0 0 1, .ret 0] }

/-- An interpreter for the two. -/
def sharingMachine : Machine :=
  { program :=
      { functions := #[sharing, dividing], entry := 0, facts := .ofFunctions #[sharing, dividing],
        faultless := by decide, facts_eq := rfl } }

/-- The callee divides by zero while its caller waits, and all is in its place. -/
theorem checked_never_goes_wrong_sharing :
    (∃ t, sharingMachine.resume 9 ⟨0, 0⟩ (.blank 3) {} = .failed (.runtime .divisionByZero) t ∧
      sharingMachine.MayRunInto (.runtime .divisionByZero)) ∧
    (∃ x, sharingMachine.after 3 ⟨⟨⟨0, 0⟩, .blank 3, {}⟩, []⟩ = some x ∧ x.spot.loc = ⟨1, 0⟩ ∧
      x.callers.length = 1 ∧ x.Sound sharingMachine) ∧
    ∀ fault, sharingMachine.MayRunInto fault → ∃ cause, fault = .runtime cause := by
  let start : Location := ⟨0, 0⟩
  have hfn : sharingMachine.program.functions[start.func]? = some sharing := rfl
  have hsize : (Frame.blank 3).size = sharing.registers := rfl
  obtain ⟨hresume, hsound, hruntime⟩ := checked_never_goes_wrong rfl hfn (by decide) hsize {}
  exact ⟨⟨_, rfl, (hresume 9).1⟩, ⟨_, rfl, rfl, rfl, hsound _ ⟨3, rfl⟩⟩, hruntime (by decide)⟩

/-- Calls itself before it does anything else. -/
def plunge : Function :=
  { name := "plunge", registers := 1, code := #[.call 0 0 [], .ret 0] }

/-- An interpreter for it, under the largest limit there is. -/
def plungeMachine : Machine :=
  { program :=
      { functions := #[plunge], entry := 0, facts := .ofFunctions #[plunge],
        faultless := by decide, facts_eq := rfl }
    maxCallDepth := Word.max }

/-- Its call is all that it does, so it fails with it. -/
theorem plunge_fails {n depth : Nat} {stop : Location → Bool} (hstop : stop ⟨0, 0⟩ = false)
    (f : Frame) {t : Track} {io : Console}
    (h : plungeMachine.calleeAt n depth 0 [] t.io = .failed .overflow io) :
    plungeMachine.walk (n + 1) depth stop 0 ⟨0, f, t⟩ = .failed .overflow ⟨io, t.seen⟩ := by
  have hinstr : plungeMachine.program.instr? ⟨0, 0⟩ = some (.call 0 0 []) := rfl
  have hexec : plungeMachine.exec (plungeMachine.calleeAt n depth) ⟨0, 0⟩ (.call 0 0 []) f t.io =
      .failed .overflow io := by
    have hcan : plungeMachine.capabilities.has .call = true := rfl
    simp only [exec, Instr.needs, if_pos hcan, perform, List.map_nil, h]
  rw [walk_succ, hinstr]
  simp only [hstop, hexec, Bool.false_eq_true, if_false]
  rfl

/-- However deep it stands, it goes down until its depth is no word any more. -/
theorem plunge_walk {left depth : Nat} (hdepth : depth + left = Word.max)
    {stop : Location → Bool} (hstop : stop ⟨0, 0⟩ = false) (f : Frame) (t : Track) :
    ∃ t', plungeMachine.walk (left + 1) depth stop 0 ⟨0, f, t⟩ = .failed .overflow t' := by
  induction left generalizing depth stop f t with
  | zero =>
    obtain rfl : depth = Word.max := hdepth
    exact ⟨_, plunge_fails hstop f rfl⟩
  | succ left ih =>
    have hdeeper : depth + 1 + left = Word.max := by omega
    obtain ⟨t', ht'⟩ := @ih (depth + 1) hdeeper (fun _ => false) rfl
      (Frame.ofArgs plunge.registers []) ⟨t.io, #[]⟩
    have hcallee : plungeMachine.calleeAt (left + 1) depth 0 [] t.io = .failed .overflow t'.io := by
      have hfn : plungeMachine.program.functions[0]? = some plunge := rfl
      have hlimit : ¬ plungeMachine.maxCallDepth < depth + 1 := by
        show ¬ Word.max < depth + 1
        omega
      rw [calleeAt, Word.next?_of_lt (by omega)]
      simp only [enter, if_neg hlimit, hfn, ht']
    exact ⟨_, plunge_fails hstop f hcallee⟩

/-- Under the largest limit, frames nest until the depth of a call overflows; so does a call
at the largest depth there is. -/
theorem plunge_overflows :
    plungeMachine.capabilities = .all ∧ plungeMachine.maxCallDepth = Word.max ∧
      (∃ fuel t, plungeMachine.resume fuel ⟨0, 0⟩ (.blank 1) {} = .failed .overflow t) ∧
      plungeMachine.call 1 Word.max 0 [] {} = .failed .overflow {} := by
  have hresume : ∀ fuel, plungeMachine.resume fuel ⟨0, 0⟩ (.blank 1) {} =
      plungeMachine.walk fuel 0 plungeMachine.stopsAt 0 ⟨0, .blank 1, ⟨{}, #[]⟩⟩ := fun _ => rfl
  have hstop : plungeMachine.stopsAt ⟨0, 0⟩ = false := rfl
  obtain ⟨t, ht⟩ := plunge_walk (Nat.zero_add Word.max) hstop (.blank 1) ⟨{}, #[]⟩
  exact ⟨rfl, rfl, ⟨Word.max + 1, t, (hresume _).trans ht⟩, rfl⟩

end Machine

end HotPath
