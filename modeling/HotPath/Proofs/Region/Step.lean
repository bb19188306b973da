/-
  HotPath.Proofs.Region.Step

  One instruction of a walk.

    * `Region.Extends` is how a region grows: what stays the same, which
      operations it leaves behind, and that every slot they mention is taken.
    * `Region.computes` says for each instruction that is no jump, split or exit
      that the operations it leaves behind, if any, do what the machine does.
    * `Region.step_on`, `Region.step_ends` and `Region.step_split` say what the
      three results of a step mean.
-/
import HotPath.Proofs.Region.Covers

namespace HotPath

open Trace Trace.Progress

/-- A chain of computations that may fail. -/
theorem bind_eq_ok {α β : Type} {x : Except Fault α} {next : α → Except Fault β} {b : β} :
    (x >>= next) = .ok b ↔ ∃ a, x = .ok a ∧ next a = .ok b := by
  cases x with
  | error e => exact ⟨nofun, fun ⟨_, h, _⟩ => nomatch h⟩
  | ok a =>
    constructor
    · intro h
      exact ⟨a, rfl, h⟩
    · rintro ⟨a', ha, h⟩
      cases ha
      exact h

theorem inWidth_eq_ok {α : Type} {x : Option α} {a : α} : inWidth x = .ok a ↔ x = some a := by
  cases x with
  | none => exact ⟨nofun, nofun⟩
  | some b => simp only [inWidth, Except.ok.injEq, Option.some.injEq]

/-- The instructions that a walk treats in ways of their own. -/
def Instr.isControl : Instr → Bool
  | .jump _ | .branch .. | .mergePoint _ | .promote _ | .ret _ => true
  | _ => false

/-- The machine that a guide's regions are about. -/
structure Guide.Describes (g : Guide) (m : Machine) : Prop where
  program : m.program = g.program
  capabilities : m.capabilities = .all
  headers : m.loopHeadersOnly = g.policy.loopHeadersOnly

theorem Guide.Describes.instr? {g : Guide} {m : Machine} (hg : g.Describes m) {loc : Location}
    {i : Instr} (hi : g.program.instr? loc = some i) : m.program.instr? loc = some i := by
  rw [hg.program]
  exact hi

namespace Region

/-- A region that stands in the code of a function, knows all of its registers
and mentions no slot that it has not taken. -/
structure Fits (p : Program) (fn : Function) (r : Region) : Prop where
  function : p.functions[r.func]? = some fn
  registers : r.regs.length = fn.registers
  cursor : r.cursor < fn.code.size
  below : ∀ b ∈ r.regs, b.Below r.nextSlot

/-- A region grew into another. Beside one slot for every register and every
instruction that it counted, it took at most `extra` slots. -/
structure Extends (extra : Nat) (r : Region) (ops : List Op) (r' : Region) : Prop where
  func_eq : r'.func = r.func
  entry_eq : r'.entry = r.entry
  stopAt_eq : r'.stopAt = r.stopAt
  ops_eq : r'.ops.toList = r.ops.toList ++ ops
  length_eq : r'.regs.length = r.regs.length
  steps_le : r.steps ≤ r'.steps
  nextSlot_le : r.nextSlot ≤ r'.nextSlot
  budget : r'.nextSlot + r.regs.length * r.steps ≤
    r.nextSlot + r.regs.length * r'.steps + extra
  below : ∀ b ∈ r'.regs, b.Below r'.nextSlot
  allBelow : Op.AllBelow r'.nextSlot ops

variable {r r' : Region}

theorem Extends.refl (h : ∀ b ∈ r.regs, b.Below r.nextSlot) : Extends 0 r [] r where
  func_eq := rfl
  entry_eq := rfl
  stopAt_eq := rfl
  ops_eq := (List.append_nil _).symm
  length_eq := rfl
  steps_le := Nat.le_refl _
  nextSlot_le := Nat.le_refl _
  budget := Nat.le_refl _
  below := h
  allBelow := trivial

theorem Extends.trans {j k : Nat} {r'' : Region} {ops ops' : List Op} (h : Extends j r ops r')
    (h' : Extends k r' ops' r'') : Extends (j + k) r (ops ++ ops') r'' where
  func_eq := h'.func_eq.trans h.func_eq
  entry_eq := h'.entry_eq.trans h.entry_eq
  stopAt_eq := h'.stopAt_eq.trans h.stopAt_eq
  ops_eq := by rw [h'.ops_eq, h.ops_eq, List.append_assoc]
  length_eq := h'.length_eq.trans h.length_eq
  steps_le := Nat.le_trans h.steps_le h'.steps_le
  nextSlot_le := Nat.le_trans h.nextSlot_le h'.nextSlot_le
  budget := by
    have h₁ := h.budget
    have h₂ := h'.budget
    rw [h.length_eq] at h₂
    omega
  below := h'.below
  allBelow := Op.allBelow_append.mpr ⟨h.allBelow.mono h'.nextSlot_le, h'.allBelow⟩

theorem Extends.weaken {j k : Nat} {ops : List Op} (hjk : j ≤ k) (h : Extends j r ops r') :
    Extends k r ops r' :=
  ⟨h.func_eq, h.entry_eq, h.stopAt_eq, h.ops_eq, h.length_eq, h.steps_le, h.nextSlot_le,
    Nat.le_trans h.budget (Nat.add_le_add_left hjk _), h.below, h.allBelow⟩

/-- Only where the walk stands may be changed as one likes. -/
theorem Extends.jump {k : Nat} {ops : List Op} (h : Extends k r ops r') (pc : Nat) :
    Extends k r ops (r'.jump pc) :=
  ⟨h.func_eq, h.entry_eq, h.stopAt_eq, h.ops_eq, h.length_eq, h.steps_le, h.nextSlot_le, h.budget,
    h.below, h.allBelow⟩

theorem Extends.fits {p : Program} {fn : Function} {k : Nat} {ops : List Op}
    (h : Extends k r ops r') (hf : r.Fits p fn) (hc : r'.cursor < fn.code.size) :
    r'.Fits p fn where
  function := by
    rw [h.func_eq]
    exact hf.function
  registers := h.length_eq.trans hf.registers
  cursor := hc
  below := h.below

theorem Fits.limit {p : Program} {fn : Function} (hf : r.Fits p fn) :
    r.regs.length ≤ Reg.limit := by
  rw [hf.registers]
  exact Program.registers_le_limit hf.function

theorem Fits.code {p : Program} {fn : Function} (hf : r.Fits p fn) {i : Instr}
    (hi : p.instr? r.loc = some i) : fn.code[r.cursor]? = some i := by
  rw [← Program.instr?_of_function hf.function]
  exact hi

theorem Fits.below_of_get {p : Program} {fn : Function} (hf : r.Fits p fn) {reg : Reg} {b : Binding}
    (h : r.regs[reg]? = some b) : b.Below r.nextSlot :=
  hf.below b (List.mem_of_getElem? h)

theorem advance_eq_ok (h : r.advance = .ok r') : r' = r.jump (r.cursor + 1) := by
  unfold advance at h
  obtain ⟨pc, hpc, h⟩ := bind_eq_ok.mp h
  have hpc := inWidth_eq_ok.mp hpc
  unfold Word.next? at hpc
  split at hpc
  · cases hpc
    cases h
    rfl
  · cases hpc

-- ============================================================================
-- Instructions that compute
-- ============================================================================

variable {m : Machine} {call : Machine.Callee} {i : Instr} {fn : Function} {p : Program}
  {limit : Nat}

/-- Operations that do what an instruction does, where the region afterwards
says which frame is left. -/
inductive Mirrors (regs : List Binding) : Outcome Console Machine.Step → Progress → Prop where
  | done (slots : Array Value) (io : Console) :
    Mirrors regs (.done ⟨.next, Binding.frame slots regs, none⟩ io) (.going slots io)
  | failed (e : Fault) (io : Console) : Mirrors regs (.failed e io) (.failed e io)
  | starved : Mirrors regs .starved .starved

/-- What processing an instruction leaves. -/
structure Computes (m : Machine) (call : Machine.Callee) (i : Instr) (r : Region) (ops : List Op)
    (r' : Region) : Prop where
  grows : Extends r.regs.length r ops r'
  cursor_eq : r'.cursor = r.cursor
  steps_eq : r'.steps = r.steps
  mirrors : ∀ slots io, r'.nextSlot ≤ slots.size →
    Mirrors r'.regs (m.perform call r.loc i (Binding.frame slots r.regs) io)
      (Op.runAll call slots io ops)

/-- A register whose new contents are known leaves no operation behind. -/
theorem computes_set {dst : Reg} {b : Binding} (hf : r.Fits p fn) (h : r.set dst b = .ok r')
    (hb : b.Below r.nextSlot)
    (hp : ∀ slots io, r.nextSlot ≤ slots.size →
      m.perform call r.loc i (Binding.frame slots r.regs) io =
        .done ⟨.next, (Binding.frame slots r.regs).set dst (b.cell slots).value b.isTainted, none⟩
          io) :
    Computes m call i r [] r' := by
  obtain ⟨hlt, rfl⟩ := set_eq_ok h
  refine ⟨?_, rfl, rfl, ?_⟩
  · refine ⟨rfl, rfl, rfl, (List.append_nil _).symm, List.length_set, Nat.le_refl _, Nat.le_refl _,
      Nat.le_add_right _ _, ?_, trivial⟩
    intro c hc
    rcases List.mem_or_eq_of_mem_set hc with hc | rfl
    · exact hf.below c hc
    · exact hb
  · intro slots io hs
    rw [hp slots io hs, ← Binding.frame_set]
    exact .done slots io

/-- An operation that fills a slot with the value that an instruction writes. -/
inductive Yields (f : Frame) (dst : Reg) (tainted : Bool) (slots : Array Value) (s : Slot) :
    Outcome Console Machine.Step → Progress → Prop where
  | done (v : Value) (io : Console) :
    Yields f dst tainted slots s (.done ⟨.next, f.set dst v tainted, none⟩ io)
      (store slots io s v)
  | failed (e : Fault) (io : Console) : Yields f dst tainted slots s (.failed e io) (.failed e io)
  | starved : Yields f dst tainted slots s .starved .starved

/-- A register whose new contents are not known moves to the slot that an
operation fills. -/
theorem computes_residual {dst : Reg} {tainted : Bool} {op : Slot → Op} (hf : r.Fits p fn)
    (h : r.residual dst tainted op = .ok r') (hop : (op r.nextSlot).Below (r.nextSlot + 1))
    (hy : ∀ slots io, r.nextSlot < slots.size →
      Yields (Binding.frame slots r.regs) dst tainted slots r.nextSlot
        (m.perform call r.loc i (Binding.frame slots r.regs) io)
        ((op r.nextSlot).run call slots io)) :
    ∃ ops, Computes m call i r ops r' := by
  unfold residual at h
  obtain ⟨⟨s, r₁⟩, hfresh, h⟩ := bind_eq_ok.mp h
  unfold fresh at hfresh
  obtain ⟨next, hnext, hfresh⟩ := bind_eq_ok.mp hfresh
  cases hfresh
  unfold nextSlot? at hnext
  split at hnext
  · cases hnext
    obtain ⟨hlt, rfl⟩ := set_eq_ok h
    have hlt' : dst < r.regs.length := hlt
    refine ⟨[op r.nextSlot], ?_, rfl, rfl, ?_⟩
    · refine ⟨rfl, rfl, rfl, Array.toList_push, List.length_set, Nat.le_refl _, Nat.le_succ _, ?_,
        ?_, Op.allBelow_singleton.mpr hop⟩
      · -- the new slot is paid for by the register that moved there
        show r.nextSlot + 1 + r.regs.length * r.steps ≤
          r.nextSlot + r.regs.length * r.steps + r.regs.length
        have : 0 < r.regs.length := Nat.lt_of_le_of_lt (Nat.zero_le _) hlt'
        omega
      · intro c hc
        rcases List.mem_or_eq_of_mem_set hc with hc | rfl
        · exact (hf.below c hc).mono (Nat.le_succ _)
        · intro s hs
          cases hs
          exact Nat.lt_succ_self _
    · intro slots io hs
      have hs' : r.nextSlot < slots.size := hs
      have hrun := hy slots io hs'
      rw [Op.runAll_singleton]
      revert hrun
      generalize m.perform call r.loc i (Binding.frame slots r.regs) io = o
      generalize (op r.nextSlot).run call slots io = q
      intro hrun
      cases hrun with
      | failed e io => exact .failed e io
      | starved => exact .starved
      | done v io =>
        rw [store, if_pos hs']
        have hframe : (Binding.frame slots r.regs).set dst v tainted =
            Binding.frame (slots.setIfInBounds r.nextSlot v)
              (r.regs.set dst (.slot r.nextSlot tainted)) := by
          rw [Binding.frame_set, Binding.frame_congr
            (agreeBelow_set (Nat.le_refl _) slots v) hf.below]
          show _ = Frame.set _ dst ((slots.setIfInBounds r.nextSlot v).getD r.nextSlot .nil) tainted
          rw [getD_set_self hs']
        rw [hframe]
        exact .done _ io
  · cases hnext

theorem fold?_eq_some {op : Operator} {a b : Binding} {v : Value} (h : fold? op a b = some v) :
    ∃ x y, a.const? = some x ∧ b.const? = some y ∧ op.eval x y = .ok v := by
  unfold fold? at h
  split at h
  · next x y hx hy =>
    refine ⟨x, y, hx, hy, ?_⟩
    cases hev : op.eval x y with
    | error e =>
      rw [hev] at h
      cases h
    | ok w =>
      rw [hev] at h
      cases h
      rfl
  · cases h

/-- An operator on two registers. What would fail is never folded. -/
theorem computes_binary {g : Guide} {op : Operator} {dst lhs rhs : Reg} (hf : r.Fits p fn)
    (h : r.compute g (.binary op dst lhs rhs) = .ok r') :
    ∃ ops, Computes m call (.binary op dst lhs rhs) r ops r' := by
  rw [compute] at h
  obtain ⟨a, ha, h⟩ := bind_eq_ok.mp h
  obtain ⟨b, hb, h⟩ := bind_eq_ok.mp h
  have ha := get_eq_ok.mp ha
  have hb := get_eq_ok.mp hb
  cases hfold : fold? op a b with
  | some v =>
    rw [hfold] at h
    refine ⟨[], computes_set hf h nofun (fun slots io _ => ?_)⟩
    obtain ⟨x, y, hx, hy, hev⟩ := fold?_eq_some hfold
    simp only [Machine.perform, Binding.frame_get ha, Binding.frame_get hb,
      Binding.frame_isTainted ha, Binding.frame_isTainted hb, Binding.cell_of_const? hx,
      Binding.cell_of_const? hy, Binding.isTainted_of_const? hx, Binding.isTainted_of_const? hy,
      hev]
    rfl
  | none =>
    rw [hfold] at h
    refine computes_residual hf h ⟨Nat.lt_succ_self _,
      ((hf.below_of_get ha).mono (Nat.le_succ _)).operand,
      ((hf.below_of_get hb).mono (Nat.le_succ _)).operand⟩ (fun slots io hs => ?_)
    have hsize := Nat.le_of_lt hs
    rw [Op.run, Binding.eval_operand ((hf.below_of_get ha).mono hsize),
      Binding.eval_operand ((hf.below_of_get hb).mono hsize)]
    simp only [Machine.perform, Binding.frame_get ha, Binding.frame_get hb,
      Binding.frame_isTainted ha, Binding.frame_isTainted hb, withValue]
    cases op.eval (a.cell slots).value (b.cell slots).value with
    | error e => exact .failed _ io
    | ok v => exact .done v io

theorem computes_print {g : Guide} {src : Reg} (hf : r.Fits p fn)
    (h : r.compute g (.print src) = .ok r') : ∃ ops, Computes m call (.print src) r ops r' := by
  rw [compute] at h
  obtain ⟨b, hb, h⟩ := bind_eq_ok.mp h
  cases h
  have hb := get_eq_ok.mp hb
  refine ⟨[.print b.operand], ?_, rfl, rfl, ?_⟩
  · exact ⟨rfl, rfl, rfl, Array.toList_push, rfl, Nat.le_refl _, Nat.le_refl _,
      Nat.le_add_right _ _, hf.below, Op.allBelow_singleton.mpr (hf.below_of_get hb).operand⟩
  · intro slots io hs
    rw [Op.runAll_singleton, Op.run, Binding.eval_operand ((hf.below_of_get hb).mono hs)]
    simp only [Machine.perform, Binding.frame_get hb, withValue]
    exact .done slots _

/-- The operands of registers mention slots that are taken. -/
theorem operands_below {regs : List Reg} {bs : List Binding} (hf : r.Fits p fn)
    (hbs : r.getAll regs = .ok bs) :
    ∀ x ∈ bs.map Binding.operand, x.Below (r.nextSlot + 1) := by
  intro x hx
  obtain ⟨b, hb, rfl⟩ := List.mem_map.mp hx
  exact ((hf.below b (mem_of_getAll hbs hb)).mono (Nat.le_succ _)).operand

theorem evalAll_getAll {regs : List Reg} {bs : List Binding} (hf : r.Fits p fn)
    (hbs : r.getAll regs = .ok bs) {slots : Array Value} (hs : r.nextSlot < slots.size) :
    Operand.evalAll slots (bs.map Binding.operand) =
      .ok (bs.map (fun b => (b.cell slots).value)) :=
  Binding.evalAll_operand (fun b hb =>
    (hf.below b (mem_of_getAll hbs hb)).mono (Nat.le_of_lt hs))

theorem computes_alloc {g : Guide} {dst : Reg} {fields : List Reg} (hf : r.Fits p fn)
    (h : r.compute g (.alloc dst fields) = .ok r') :
    ∃ ops, Computes m call (.alloc dst fields) r ops r' := by
  rw [compute] at h
  obtain ⟨bs, hbs, h⟩ := bind_eq_ok.mp h
  cases hconst : consts? bs with
  | some vs =>
    rw [hconst] at h
    refine ⟨[], computes_set hf h nofun (fun slots io _ => ?_)⟩
    obtain ⟨hv, ht⟩ := Binding.values_of_getElem? (getAll_eq_ok hbs) slots
    obtain ⟨hv', ht'⟩ := consts?_eq_some hconst slots
    simp only [Machine.perform, hv, ht, hv', ht']
    rfl
  | none =>
    rw [hconst] at h
    refine computes_residual hf h ⟨Nat.lt_succ_self _, operands_below hf hbs⟩ (fun slots io hs => ?_)
    obtain ⟨hv, ht⟩ := Binding.values_of_getElem? (getAll_eq_ok hbs) slots
    rw [Op.run, evalAll_getAll hf hbs hs]
    simp only [Machine.perform, hv, ht, withValue]
    exact .done _ io

theorem computes_getField {g : Guide} {dst obj : Reg} {index : UInt64} (hf : r.Fits p fn)
    (h : r.compute g (.getField dst obj index) = .ok r') :
    ∃ ops, Computes m call (.getField dst obj index) r ops r' := by
  rw [compute] at h
  obtain ⟨b, hb, h⟩ := bind_eq_ok.mp h
  have hb := get_eq_ok.mp hb
  cases hfold : b.const?.bind (fun v => (v.field index).toOption) with
  | some v =>
    rw [hfold] at h
    refine ⟨[], computes_set hf h nofun (fun slots io _ => ?_)⟩
    obtain ⟨x, hx, hfold⟩ := Option.bind_eq_some_iff.mp hfold
    cases hev : x.field index with
    | error e =>
      rw [hev] at hfold
      cases hfold
    | ok w =>
      rw [hev] at hfold
      cases hfold
      simp only [Machine.perform, Binding.frame_get hb, Binding.frame_isTainted hb,
        Binding.cell_of_const? hx, Binding.isTainted_of_const? hx, hev]
      rfl
  | none =>
    rw [hfold] at h
    refine computes_residual hf h ⟨Nat.lt_succ_self _,
      ((hf.below_of_get hb).mono (Nat.le_succ _)).operand⟩ (fun slots io hs => ?_)
    rw [Op.run, Binding.eval_operand ((hf.below_of_get hb).mono (Nat.le_of_lt hs))]
    simp only [Machine.perform, Binding.frame_get hb, Binding.frame_isTainted hb, withValue]
    cases (b.cell slots).value.field index with
    | error e => exact .failed _ io
    | ok v => exact .done v io

/-- A call. Its result is tainted if the machine says so. -/
theorem computes_call {g : Guide} (hg : g.Describes m) {dst : Reg} {func : FuncId}
    {args : List Reg} (hf : r.Fits p fn) (h : r.compute g (.call dst func args) = .ok r') :
    ∃ ops, Computes m call (.call dst func args) r ops r' := by
  rw [compute] at h
  obtain ⟨bs, hbs, h⟩ := bind_eq_ok.mp h
  refine computes_residual hf h ⟨Nat.lt_succ_self _, operands_below hf hbs⟩ (fun slots io hs => ?_)
  obtain ⟨hv, ht⟩ := Binding.values_of_getElem? (getAll_eq_ok hbs) slots
  rw [Op.run, evalAll_getAll hf hbs hs]
  simp only [Machine.perform, hv, ht, withValue, hg.program]
  cases call func (bs.map (fun b => (b.cell slots).value)) io with
  | done v io => exact .done v io
  | failed e io => exact .failed e io
  | starved => exact .starved

/-- Processing an instruction leaves operations that do what it does. -/
theorem computes {g : Guide} (hg : g.Describes m) (hf : r.Fits p fn)
    (hi : i.isControl = false) (h : r.compute g i = .ok r') :
    ∃ ops, Computes m call i r ops r' := by
  cases i with
  | const dst v => exact ⟨[], computes_set hf h nofun (fun slots io _ => rfl)⟩
  | move dst src =>
    rw [compute] at h
    obtain ⟨b, hb, h⟩ := bind_eq_ok.mp h
    have hb := get_eq_ok.mp hb
    refine ⟨[], computes_set hf h (hf.below_of_get hb) (fun slots io _ => ?_)⟩
    simp only [Machine.perform, Binding.frame_get hb, Binding.frame_isTainted hb]
  | binary op dst lhs rhs => exact computes_binary hf h
  | input dst =>
    exact computes_residual hf h (Nat.lt_succ_self _)
      (fun slots io _ => .done io.read.1 io.read.2)
  | print src => exact computes_print hf h
  | alloc dst fields => exact computes_alloc hf h
  | getField dst obj index => exact computes_getField hf h
  | call dst func args => exact computes_call hg hf h
  | jump pc => cases hi
  | branch c e j => cases hi
  | mergePoint gs => cases hi
  | promote reg => cases hi
  | ret reg => cases hi

-- ============================================================================
-- One step
-- ============================================================================

/-- A part of the walk: the region grew inside its code and its budget, and its
operations keep up with the machine to where the walk stands now, if it goes
on. -/
structure Carries (m : Machine) (call : Machine.Callee) (fn : Function) (limit extra : Nat)
    (r : Region) (ops : List Op) (goes : Bool) (r' : Region) : Prop where
  grows : Extends extra r ops r'
  inCode : r'.cursor < fn.code.size
  within : r'.steps ≤ limit
  covers : Covers m call r'.nextSlot r ops (bif goes then some r' else none)

/-- One part of the walk after another. -/
theorem Carries.trans {j k : Nat} {ops ops' : List Op} {goes : Bool} {r'' : Region}
    (h : Carries m call fn limit j r ops true r') (h' : Carries m call fn limit k r' ops' goes r'') :
    Carries m call fn limit (j + k) r (ops ++ ops') goes r'' :=
  ⟨h.grows.trans h'.grows, h'.inCode, h'.within, (h.covers.mono h'.grows.nextSlot_le).append h'.covers⟩

/-- An instruction that does nothing but move on. -/
theorem carries_jump {pc : Nat} (hf : r.Fits p fn) (hl : r.steps ≤ limit) (hpc : pc < fn.code.size)
    (hsteps : ∀ slots io, m.Steps call m.stopsAt (r.spot slots io) ((r.jump pc).spot slots io)) :
    Carries m call fn limit r.regs.length r [] true (r.jump pc) where
  grows := ((Extends.refl hf.below).jump pc).weaken (Nat.zero_le _)
  inCode := hpc
  within := hl
  covers := Covers.of_steps hsteps .nil

theorem carries_of_computes {ops : List Op} (hall : m.capabilities = .all)
    (hi : m.program.instr? r.loc = some i) (hm : i.isMergePoint = false)
    (hnext : r.cursor + 1 < fn.code.size) (hl : r.steps ≤ limit) (h : Computes m call i r ops r') :
    Carries m call fn limit r.regs.length r ops true (r'.jump (r'.cursor + 1)) where
  grows := h.grows.jump _
  inCode := by
    show r'.cursor + 1 < fn.code.size
    rw [h.cursor_eq]
    exact hnext
  within := Nat.le_trans (Nat.le_of_eq h.steps_eq) hl
  covers := by
    intro slots io hs
    have hstop : m.stopsAt (r.spot slots io).loc = false := Machine.stopsAt_eq_false hi hm
    have hmove : m.move call (r.spot slots io) = Move.ofExec r.loc
        (m.perform call r.loc i (Binding.frame slots r.regs) io) :=
      Machine.move_eq_perform (s := r.spot slots io) hall hi
    have hloc : r.loc.after = (r'.jump (r'.cursor + 1)).loc := by
      simp only [Location.after, loc, jump, h.cursor_eq, h.grows.func_eq]
    have hmir := h.mirrors slots io hs
    revert hmir hmove
    generalize m.perform call r.loc i (Binding.frame slots r.regs) io = o
    generalize Op.runAll call slots io ops = q
    intro hmove hmir
    cases hmir with
    | done slots' io' =>
      refine ⟨_, rfl, .single ⟨hstop, ?_⟩⟩
      rw [hmove]
      simp only [Move.ofExec, hloc]
      rfl
    | failed e io' => exact ⟨_, .refl, .halts hstop hmove⟩
    | starved => exact ⟨_, .refl, .halts hstop hmove⟩

/-- The rules by which a step treats an instruction. -/
inductive Treats (g : Guide) (r : Region) : Instr → Step → Prop where
  | compute {i : Instr} {r₁ r' : Region} (hi : i.isControl = false) (hc : r.compute g i = .ok r₁)
    (ha : r₁.advance = .ok r') : Treats g r i (.on r')
  | jump {target : Nat} : Treats g r (.jump target) (.on (r.jump target))
  | fold {cond : Reg} {elsePc : Nat} {join : Option Nat} {b : Binding} {v : Value}
    (hb : r.regs[cond]? = some b) (hv : b.const? = some v) :
    Treats g r (.branch cond elsePc join)
      (.on (r.jump (if v.truthy then r.cursor + 1 else elsePc)))
  | split {cond : Reg} {elsePc : Nat} {join : Option Nat} {b : Binding}
    (hb : r.regs[cond]? = some b) :
    Treats g r (.branch cond elsePc join) (.split b.operand elsePc join)
  | arrive {greens : List Reg}
    (hd : g.program.isDispatchPoint g.policy.loopHeadersOnly r.loc = true) :
    Treats g r (.mergePoint greens) (.ends (r.leaveHere .mergePoint))
  | pass {greens : List Reg} {r' : Region}
    (hd : g.program.isDispatchPoint g.policy.loopHeadersOnly r.loc = false)
    (ha : r.advance = .ok r') : Treats g r (.mergePoint greens) (.on r')
  | promote {reg : Reg} : Treats g r (.promote reg) (.ends (r.leaveHere (.promotion reg)))
  | skip {reg : Reg} {r' : Region} (ha : r.advance = .ok r') : Treats g r (.promote reg) (.on r')
  | ret {src : Reg} {b : Binding} (hb : r.regs[src]? = some b) :
    Treats g r (.ret src) (.ends (r.leaveHere (.returned b.operand)))

theorem map_on_eq_ok {q : Region} {s : Step} (h : q.advance.map Step.on = .ok s) :
    ∃ r', q.advance = .ok r' ∧ s = .on r' := by
  cases ha : q.advance with
  | error e =>
    rw [ha] at h
    cases h
  | ok r' =>
    rw [ha] at h
    cases h
    exact ⟨r', rfl, rfl⟩

/-- Every step is by one of the rules. -/
theorem treats_of_step {g : Guide} {s : Step} (h : r.step g i = .ok s) : Treats g r i s := by
  have hcompute : ∀ j : Instr, j.isControl = false →
      (r.compute g j >>= fun r => r.advance.map Step.on) = .ok s → Treats g r j s := by
    intro j hj h
    obtain ⟨r₁, hc, h⟩ := bind_eq_ok.mp h
    obtain ⟨r', ha, rfl⟩ := map_on_eq_ok h
    exact .compute hj hc ha
  cases i with
  | jump target =>
    cases h
    exact .jump
  | branch cond elsePc join =>
    rw [step] at h
    obtain ⟨b, hb, h⟩ := bind_eq_ok.mp h
    have hb := get_eq_ok.mp hb
    cases hc : b.const? with
    | none =>
      rw [hc] at h
      cases h
      exact .split hb
    | some v =>
      rw [hc] at h
      cases h
      exact .fold hb hc
  | mergePoint greens =>
    rw [step] at h
    split at h
    · next hd =>
      cases h
      exact .arrive hd
    · next hd =>
      obtain ⟨r', ha, rfl⟩ := map_on_eq_ok h
      exact .pass (Bool.eq_false_iff.mpr hd) ha
  | promote reg =>
    rw [step] at h
    obtain ⟨b, hb, h⟩ := bind_eq_ok.mp h
    split at h
    · cases h
      exact .promote
    · obtain ⟨r', ha, rfl⟩ := map_on_eq_ok h
      exact .skip ha
  | ret src =>
    rw [step] at h
    obtain ⟨b, hb, h⟩ := bind_eq_ok.mp h
    cases h
    exact .ret (get_eq_ok.mp hb)
  | _ => exact hcompute _ rfl h

section Steps

variable {g : Guide} (hg : g.Describes m) (hf : r.Fits g.program fn)
  (hi : g.program.instr? r.loc = some i) (hl : r.steps ≤ limit)
include hg hf hi hl

/-- An instruction that leaves the frame alone and goes on to the next one. -/
theorem carries_next (hstop : m.stopsAt r.loc = false)
    (hmem : r.cursor + 1 ∈ i.successors r.cursor)
    (hp : ∀ slots io, ∃ seen, m.perform call r.loc i (Binding.frame slots r.regs) io =
      .done ⟨.next, Binding.frame slots r.regs, seen⟩ io) :
    Carries m call fn limit r.regs.length r [] true (r.jump (r.cursor + 1)) := by
  refine carries_jump hf hl (Program.successor_lt hf.function (hf.code hi) hmem)
    (fun slots io => ⟨hstop, ?_⟩)
  obtain ⟨seen, hp⟩ := hp slots io
  rw [Machine.move_eq_perform (s := r.spot slots io) hg.capabilities (hg.instr? hi)]
  show Move.ofExec r.loc (m.perform call r.loc i (Binding.frame slots r.regs) io) = _
  rw [hp]
  rfl

/-- A step with which the walk goes on. -/
theorem step_on (h : r.step g i = .ok (.on r')) :
    ∃ ops, Carries m call fn limit r.regs.length r ops true r' := by
  have hsucc : ∀ t ∈ i.successors r.cursor, t < fn.code.size :=
    fun t ht => Program.successor_lt hf.function (hf.code hi) ht
  have hi' := hg.instr? hi
  cases treats_of_step h with
  | @compute _ r₁ _ hctl hc ha =>
    obtain ⟨ops, hops⟩ : ∃ ops, Computes m call i r ops r₁ := computes hg hf hctl hc
    have hmerge : i.isMergePoint = false := by
      cases i with
      | mergePoint gs => cases hctl
      | _ => rfl
    have hnext : r.cursor + 1 < fn.code.size := by
      refine hsucc _ ?_
      cases i with
      | jump pc => cases hctl
      | branch c e j => cases hctl
      | ret reg => cases hctl
      | _ => exact List.mem_singleton.mpr rfl
    rw [advance_eq_ok ha]
    exact ⟨ops, carries_of_computes hg.capabilities hi' hmerge hnext hl hops⟩
  | jump =>
    refine ⟨[], carries_jump hf hl (hsucc _ (List.mem_singleton.mpr rfl))
      (fun slots io => ⟨Machine.stopsAt_eq_false hi' rfl, ?_⟩)⟩
    rw [Machine.move_eq_perform (s := r.spot slots io) hg.capabilities hi']
    rfl
  | @fold cond elsePc join b v hb hv =>
    refine ⟨[], carries_jump hf hl (hsucc _ ?_) (fun slots io => ?_)⟩
    · cases v.truthy with
      | true => exact List.mem_cons_self
      | false => exact List.mem_cons_of_mem _ (List.mem_singleton.mpr rfl)
    · have hstep : m.Steps call m.stopsAt _ _ := steps_branch hi' hb slots io
      rw [Binding.cell_of_const? hv] at hstep
      exact hstep
  | pass hd ha =>
    have hstop : m.stopsAt r.loc = false := by
      rw [← hg.program, ← hg.headers] at hd
      exact hd
    rw [advance_eq_ok ha]
    exact ⟨[], carries_next hg hf hi hl hstop (List.mem_singleton.mpr rfl)
      (fun slots io => ⟨_, rfl⟩)⟩
  | skip ha =>
    rw [advance_eq_ok ha]
    exact ⟨[], carries_next hg hf hi hl (Machine.stopsAt_eq_false hi' rfl)
      (List.mem_singleton.mpr rfl) (fun slots io => ⟨_, rfl⟩)⟩

omit hf hl in
/-- A step that ends the walk leaves for a reason. -/
theorem step_ends (h : r.step g i = .ok (.ends r')) :
    ∃ kind, r' = r.leaveHere kind ∧ MayLeave m r kind := by
  have hi' := hg.instr? hi
  cases treats_of_step h with
  | arrive hd =>
    rw [← hg.program, ← hg.headers] at hd
    exact ⟨.mergePoint, rfl, .mergePoint hd⟩
  | promote => exact ⟨_, rfl, .promotion hi'⟩
  | ret hb => exact ⟨_, rfl, .returned hi' hb⟩

end Steps

/-- A split on a register that is not fixed. -/
theorem step_split {g : Guide} {cond : Operand} {elsePc : Nat} {join : Option Nat}
    (h : r.step g i = .ok (.split cond elsePc join)) :
    ∃ reg b, i = .branch reg elsePc join ∧ r.regs[reg]? = some b ∧ cond = b.operand := by
  cases treats_of_step h with
  | split hb => exact ⟨_, _, rfl, hb, rfl⟩

-- ============================================================================
-- Ending with an exit
-- ============================================================================

theorem leaveAt_below {kind : LeaveKind} (hf : r.Fits p fn) (hk : MayLeave m r kind) :
    (r.leaveAt r.loc kind).Below r.nextSlot := by
  refine ⟨hf.below, fun x hx => ?_⟩
  cases hk with
  | returned h hb =>
    cases hx
    exact (hf.below_of_get hb).operand
  | _ => cases hx

/-- Leaving where the walk stands ends it. -/
theorem carries_leaveHere {kind : LeaveKind} (hf : r.Fits p fn) (hl : r.steps ≤ limit)
    (hk : MayLeave m r kind) :
    Carries m call fn limit r.regs.length r [.exit (r.leaveAt r.loc kind)] false
      (r.leaveHere kind) where
  grows := by
    have hop : Op.AllBelow r.nextSlot [.exit (r.leaveAt r.loc kind)] :=
      Op.allBelow_singleton.mpr (leaveAt_below hf hk)
    exact ⟨rfl, rfl, rfl, Array.toList_push, rfl, Nat.le_refl _, Nat.le_refl _,
      Nat.le_add_right _ _, hf.below, hop⟩
  inCode := hf.cursor
  within := hl
  covers := covers_exit hk hf.limit hf.below

/-- Keeping to one arm of a split leaves a guard behind. -/
theorem carries_keepArm {cond : Reg} {elsePc : Nat} {join : Option Nat} {b : Binding}
    (hf : r.Fits m.program fn) (hl : r.steps ≤ limit)
    (hi : m.program.instr? r.loc = some (.branch cond elsePc join)) (hb : r.regs[cond]? = some b)
    (taken : Bool) :
    Carries m call fn limit r.regs.length r
      [.guard b.operand taken (r.leaveAt r.loc .fallback)] true
      (r.keepArm b.operand taken elsePc) where
  grows := by
    have hop : Op.AllBelow r.nextSlot [.guard b.operand taken (r.leaveAt r.loc .fallback)] :=
      Op.allBelow_singleton.mpr ⟨(hf.below_of_get hb).operand,
        leaveAt_below hf (MayLeave.fallback (m := m))⟩
    exact ⟨rfl, rfl, rfl, Array.toList_push, rfl, Nat.le_refl _, Nat.le_refl _,
      Nat.le_add_right _ _, hf.below, hop⟩
  inCode := by
    refine Program.successor_lt hf.function (hf.code hi) ?_
    cases taken with
    | true => exact List.mem_cons_self
    | false => exact List.mem_cons_of_mem _ (List.mem_singleton.mpr rfl)
  within := hl
  covers := covers_guard hi hb hf.limit hf.below taken

end Region

end HotPath
