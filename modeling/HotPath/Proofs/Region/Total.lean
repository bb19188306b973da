/-
  HotPath.Proofs.Region.Total

  Specialization comes to a verdict. The checks of a program rule out registers
  and addresses that do not exist, and arms that stop at a join stop at the same
  one, so that only a number can leave its width (`Region.specialize_succeedsIf`).
  A budget of at most 2^25 instructions is too small for slots or counts of
  instructions to do so, and then only counts of passes through arms are left:
  they have to be small enough to be doubled (`Region.specialize_succeeds`).

  A walk goes on only from regions that have counted an instruction more
  (`Region.Visits.ready`), so that its budget ends it before its allowance does
  (`Region.grow_succ_eq`).
-/
import HotPath.Proofs.Region.Entry
import HotPath.Proofs.Region.HotArm

namespace HotPath

/-- A computation that does not fail. -/
def Succeeds {α : Type} (x : Except Fault α) : Prop := ∃ a, x = .ok a

theorem Succeeds.ok {α : Type} (a : α) : Succeeds (.ok a) := ⟨a, rfl⟩

theorem Succeeds.bind {α β : Type} {x : Except Fault α} {next : α → Except Fault β}
    (hx : Succeeds x) (hn : ∀ a, x = .ok a → Succeeds (next a)) : Succeeds (x >>= next) := by
  obtain ⟨a, ha⟩ := hx
  obtain ⟨b, hb⟩ := hn a ha
  exact ⟨b, bind_eq_ok.mpr ⟨a, ha, hb⟩⟩

theorem Succeeds.map {α β : Type} {x : Except Fault α} (hx : Succeeds x) (f : α → β) :
    Succeeds (x.map f) := by
  obtain ⟨a, rfl⟩ := hx
  exact ⟨f a, rfl⟩

/-- A computation that does not fail under a condition, and without it only
because a number leaves its width. -/
def SucceedsIf {α : Type} (c : Prop) (x : Except Fault α) : Prop :=
  Succeeds x ∨ (x = .error .overflow ∧ ¬ c)

theorem Succeeds.when {α : Type} {x : Except Fault α} (h : Succeeds x) {c : Prop} :
    SucceedsIf c x := Or.inl h

namespace SucceedsIf

variable {α β : Type} {c : Prop}

theorem ok (a : α) : SucceedsIf c (.ok a) := (Succeeds.ok a).when

theorem succeeds {x : Except Fault α} (h : SucceedsIf c x) (hc : c) : Succeeds x :=
  h.resolve_right (fun hx => hx.2 hc)

theorem bind {x : Except Fault α} {next : α → Except Fault β} (hx : SucceedsIf c x)
    (hn : ∀ a, x = .ok a → SucceedsIf c (next a)) : SucceedsIf c (x >>= next) := by
  rcases hx with ⟨a, ha⟩ | ⟨he, hc⟩
  · have hnext := hn a ha
    rw [ha]
    exact hnext
  · rw [he]
    exact Or.inr ⟨rfl, hc⟩

/-- What leaves its width only if a condition fails. -/
theorem ite {p : Prop} [Decidable p] (h : c → p) (a : α) :
    SucceedsIf c (if p then .ok a else .error .overflow) := by
  by_cases hp : p
  · rw [if_pos hp]
    exact .ok a
  · rw [if_neg hp]
    exact Or.inr ⟨rfl, fun hc => hp (h hc)⟩

end SucceedsIf

/-- Counts that are small enough to be doubled. -/
def Heat.Tame (h : Heat) : Prop := ∀ k, h.count k < Word.half

/-- Only keys that were counted matter. -/
theorem Heat.tame_iff {h : Heat} : h.Tame ↔ ∀ k ∈ h.counts.keys, h.count k < Word.half := by
  refine ⟨fun ht k _ => ht k, fun hk k => ?_⟩
  by_cases hmem : k ∈ h.counts.keys
  · exact hk k hmem
  · have hnone : h.counts.get? k = none := by
      rw [Table.mem_keys] at hmem
      simpa [Table.contains] using hmem
    unfold count
    rw [hnone]
    decide

instance (h : Heat) : Decidable h.Tame := decidable_of_iff _ Heat.tame_iff.symm

/-- The dominating arm of a split can be told from counts that can be doubled. -/
theorem Guide.hotArm_succeedsIf {g : Guide} {c : Prop} (hg : c → g.heat.Tame) (loc : Location) :
    SucceedsIf c (g.hotArm loc) := by
  have hover : ∀ arm, g.Overflows loc arm → ¬ c :=
    fun arm h hc => Nat.not_le.mpr (hg hc _) h.2
  rw [hotArm_eq]
  split_ifs with htaken _ hother
  · exact Or.inr ⟨rfl, hover true htaken⟩
  · exact .ok _
  · exact Or.inr ⟨rfl, hover false hother⟩
  · exact .ok _
  · exact .ok _

/-- A machine that a guide's regions are about. -/
def Guide.machine (g : Guide) : Machine :=
  { program := g.program, loopHeadersOnly := g.policy.loopHeadersOnly }

theorem Guide.describes_machine (g : Guide) : g.Describes g.machine := ⟨rfl, rfl, rfl⟩

/-- Calls that never come back. What a walk looks like does not depend on calls. -/
def Machine.Callee.never : Machine.Callee := fun _ _ _ => .starved

namespace Region

variable {p : Program} {fn : Function} {r : Region} {i : Instr} {c : Prop}

-- ============================================================================
-- Registers, slots and addresses
-- ============================================================================

theorem get_succeeds {reg : Reg} (h : reg < r.regs.length) : Succeeds (r.get reg) := by
  refine ⟨r.regs[reg], get_eq_ok.mpr ?_⟩
  exact List.getElem?_eq_getElem h

theorem getAll_succeeds {regs : List Reg} (h : ∀ reg ∈ regs, reg < r.regs.length) :
    Succeeds (r.getAll regs) := by
  induction regs with
  | nil => exact .ok _
  | cons reg regs ih =>
    rw [getAll]
    refine (get_succeeds (h reg List.mem_cons_self)).bind (fun b _ => ?_)
    exact (ih (fun s hs => h s (List.mem_cons_of_mem _ hs))).bind (fun bs _ => .ok _)

theorem set_succeeds {reg : Reg} (h : reg < r.regs.length) (b : Binding) :
    Succeeds (r.set reg b) := by
  unfold set
  rw [if_pos h]
  exact .ok _

theorem nextSlot?_succeedsIf {s : Slot} (h : c → s < Word.max32) : SucceedsIf c (nextSlot? s) :=
  .ite h _

theorem residual_succeedsIf {dst : Reg} (hs : c → r.nextSlot < Word.max32)
    (hd : dst < r.regs.length) (tainted : Bool) (op : Slot → Op) :
    SucceedsIf c (r.residual dst tainted op) := by
  unfold residual fresh
  refine ((nextSlot?_succeedsIf hs).bind (fun next _ => .ok _)).bind (fun q hq => ?_)
  obtain ⟨next, -, hq⟩ := bind_eq_ok.mp hq
  cases hq
  exact (set_succeeds (r := emit { r with nextSlot := next } (op r.nextSlot)) hd _).when

theorem advance_succeeds (hf : r.Fits p fn) : Succeeds r.advance := by
  unfold advance
  rw [Program.next?_cursor hf.function hf.cursor]
  exact .ok _

-- ============================================================================
-- One instruction
-- ============================================================================

/-- Every register of an instruction is known. -/
theorem Fits.register_lt (hf : r.Fits p fn) (hi : p.instr? r.loc = some i) {reg : Reg}
    (h : reg ∈ i.reads ++ i.writes.toList) : reg < r.regs.length := by
  rw [hf.registers]
  exact Program.register_lt hf.function (hf.code hi) h

theorem compute_succeedsIf {g : Guide} (hf : r.Fits p fn) (hi : p.instr? r.loc = some i)
    (hs : c → r.nextSlot < Word.max32) : SucceedsIf c (r.compute g i) := by
  have hreg : ∀ reg ∈ i.reads ++ i.writes.toList, reg < r.regs.length :=
    fun reg h => hf.register_lt hi h
  cases i with
  | const dst v => exact (set_succeeds (hreg dst (by simp [Instr.writes, Instr.reads])) _).when
  | move dst src =>
    refine (get_succeeds (hreg src (by simp [Instr.reads]))).when.bind (fun b _ => ?_)
    exact (set_succeeds (hreg dst (by simp [Instr.writes])) _).when
  | binary op dst lhs rhs =>
    have hdst : dst < r.regs.length := hreg dst (by simp [Instr.writes])
    refine (get_succeeds (hreg lhs (by simp [Instr.reads]))).when.bind (fun a _ => ?_)
    refine (get_succeeds (hreg rhs (by simp [Instr.reads]))).when.bind (fun b _ => ?_)
    cases fold? op a b with
    | some v => exact (set_succeeds hdst _).when
    | none => exact residual_succeedsIf hs hdst _ _
  | input dst => exact residual_succeedsIf hs (hreg dst (by simp [Instr.writes, Instr.reads])) _ _
  | print src =>
    exact (get_succeeds (hreg src (by simp [Instr.reads]))).when.bind (fun b _ => .ok _)
  | alloc dst fields =>
    have hdst : dst < r.regs.length := hreg dst (by simp [Instr.writes])
    refine (getAll_succeeds (fun reg h => hreg reg (List.mem_append_left _ h))).when.bind
      (fun bs _ => ?_)
    cases consts? bs with
    | some vs => exact (set_succeeds hdst _).when
    | none => exact residual_succeedsIf hs hdst _ _
  | getField dst obj index =>
    have hdst : dst < r.regs.length := hreg dst (by simp [Instr.writes])
    refine (get_succeeds (hreg obj (by simp [Instr.reads]))).when.bind (fun b _ => ?_)
    cases b.const?.bind (fun v => (v.field index).toOption) with
    | some v => exact (set_succeeds hdst _).when
    | none => exact residual_succeedsIf hs hdst _ _
  | call dst func args =>
    have hdst : dst < r.regs.length := hreg dst (by simp [Instr.writes])
    refine (getAll_succeeds (fun reg h => hreg reg (List.mem_append_left _ h))).when.bind
      (fun bs _ => ?_)
    exact residual_succeedsIf hs hdst _ _
  | jump | branch | mergePoint | promote | ret => exact .ok _

theorem compute_advance_succeedsIf {g : Guide} (hf : r.Fits p fn) (hi : p.instr? r.loc = some i)
    (hctl : i.isControl = false) (hs : c → r.nextSlot < Word.max32) :
    SucceedsIf c (r.compute g i >>= fun r => r.advance.map Step.on) := by
  refine (compute_succeedsIf hf hi hs).bind (fun r₁ hr₁ => ?_)
  -- computing leaves the walk where it stands
  obtain ⟨ops, hc⟩ : ∃ ops, Computes g.machine Machine.Callee.never i r ops r₁ :=
    computes g.describes_machine hf hctl hr₁
  exact ((advance_succeeds (hc.grows.fits hf (hc.cursor_eq ▸ hf.cursor))).map _).when

theorem step_succeedsIf {g : Guide} (hf : r.Fits p fn) (hi : p.instr? r.loc = some i)
    (hs : c → r.nextSlot < Word.max32) : SucceedsIf c (r.step g i) := by
  have hreg : ∀ reg ∈ i.reads ++ i.writes.toList, reg < r.regs.length :=
    fun reg h => hf.register_lt hi h
  cases i with
  | jump target => exact .ok _
  | branch cond elsePc join =>
    refine (get_succeeds (hreg cond (by simp [Instr.reads]))).when.bind (fun b _ => ?_)
    cases b.const? with
    | some v => exact .ok _
    | none => exact .ok _
  | mergePoint greens =>
    rw [step]
    split
    · exact .ok _
    · exact ((advance_succeeds hf).map _).when
  | promote reg =>
    refine (get_succeeds (hreg reg (by simp [Instr.reads]))).when.bind (fun b _ => ?_)
    split
    · exact .ok _
    · exact ((advance_succeeds hf).map _).when
  | ret src =>
    exact (get_succeeds (hreg src (by simp [Instr.reads]))).when.bind (fun b _ => .ok _)
  | _ => exact compute_advance_succeedsIf hf hi rfl hs

-- ============================================================================
-- Two arms
-- ============================================================================

theorem weave_succeedsIf {next : Nat} {ts es : List Binding}
    (h : c → next + ts.length ≤ Word.max32) : SucceedsIf c (weave next ts es) := by
  induction ts generalizing next es with
  | nil => exact .ok _
  | cons t ts ih =>
    cases es with
    | nil => exact .ok _
    | cons e es =>
      rw [List.length_cons] at h
      have hwiden : SucceedsIf c (nextSlot? next >>= fun next' => weave next' ts es >>= fun w =>
          pure (⟨.slot next t.isTainted :: w.regs, materialize next t :: w.thenOps,
            materialize next e :: w.elseOps, w.nextSlot⟩ : Weave)) := by
        have hnext : c → next < Word.max32 := by
          intro hc
          have := h hc
          omega
        refine (nextSlot?_succeedsIf hnext).bind (fun next' hn => ?_)
        unfold nextSlot? at hn
        split at hn
        · cases hn
          have hrest : SucceedsIf c (weave (next + 1) ts es) := by
            refine ih (fun hc => ?_)
            have := h hc
            omega
          exact hrest.bind (fun w _ => .ok _)
        · cases hn
      rw [weave]
      cases mergeReg t e with
      | keep b =>
        refine (ih (fun hc => ?_)).bind (fun w _ => .ok _)
        have := h hc
        omega
      | widen => exact hwiden
      | clash c => exact hwiden

/-- Arms that have met are merged, or a register is named that cannot be. -/
theorem mergeArms_succeedsIf {a b : Region} (hmet : Met a b)
    (h : c → max a.nextSlot b.nextSlot + a.regs.length ≤ Word.max32) :
    SucceedsIf c (mergeArms a b) := by
  unfold mergeArms
  rw [if_pos (met_iff.mp hmet)]
  cases firstClash? 0 a.regs b.regs with
  | some x => exact .ok _
  | none => exact (weave_succeedsIf h).bind (fun w _ => .ok _)

/-- Arms that stop at joins are at the same one, and have slots to merge in. -/
theorem rejoin_succeedsIf {m : Machine} {call : Machine.Callee} {limit elsePc : Nat}
    {join : Option Nat} {a b : Region} {aops bops : List Op} {thenJoined elseJoined : Bool}
    (ha : Walked m call fn limit (r.thenArm join) aops thenJoined a)
    (hb : Walked m call fn limit (r.elseArm a elsePc join) bops elseJoined b)
    (hs : c → b.nextSlot + r.regs.length ≤ Word.max32) (cond : Operand) :
    SucceedsIf c (r.rejoin cond a b thenJoined elseJoined) := by
  have harms := arms_of_walked ha hb
  unfold rejoin
  cases thenJoined with
  | false => cases elseJoined <;> exact .ok _
  | true =>
    cases elseJoined with
    | false => exact .ok _
    | true =>
      have hcursor : a.cursor = b.cursor := by
        have h₁ := ha.atJoin rfl
        have h₂ := hb.atJoin rfl
        rw [ha.grows.stopAt_eq] at h₁
        rw [hb.grows.stopAt_eq] at h₂
        have h : some a.cursor = some b.cursor := h₁.symm.trans h₂
        exact Option.some.inj h
      obtain ⟨hfa, hla, -⟩ := harms.thenFits
      obtain ⟨hfb, hlb, -⟩ := harms.elseFits
      have hmet : Met a b := ⟨hfa.trans hfb.symm, hcursor, hla.trans hlb.symm⟩
      have hmerge : SucceedsIf c (mergeArms a b) := by
        apply mergeArms_succeedsIf hmet
        rw [hla, Nat.max_eq_right harms.nextSlot_le']
        exact hs
      refine hmerge.bind (fun merge _ => ?_)
      cases merge with
      | merged thenOps elseOps q => exact .ok _
      | clash a' b' reg conflict => exact .ok _

-- ============================================================================
-- The walk
-- ============================================================================

/-- The slots that a region has taken are paid for. -/
def Paid (r : Region) : Prop := r.nextSlot ≤ r.regs.length * (r.steps + 1)

theorem Extends.paid {r' : Region} {ops : List Op} (h : Extends 0 r ops r') (hp : r.Paid) :
    r'.Paid := by
  have hbudget := h.budget
  unfold Paid at hp ⊢
  rw [h.length_eq]
  rw [Nat.mul_add_one] at hp ⊢
  omega

/-- The second arm starts from what the first has paid for. -/
theorem paid_elseArm {a : Region} {elsePc : Nat} {join : Option Nat} {ops : List Op}
    (ha : Extends 0 (r.thenArm join) ops a) (hp : r.Paid) : (r.elseArm a elsePc join).Paid := by
  have hpaid : a.Paid := ha.paid hp
  have hnext : (r.elseArm a elsePc join).nextSlot = a.nextSlot := Nat.max_eq_right ha.nextSlot_le
  have hsteps : (r.elseArm a elsePc join).steps = a.steps := Nat.max_eq_right ha.steps_le
  have hlen : (r.elseArm a elsePc join).regs.length = a.regs.length := ha.length_eq.symm
  unfold Paid at hpaid ⊢
  rw [hnext, hsteps, hlen]
  exact hpaid

/-- A budget of at most 2^25 instructions leaves slots for one merge more. -/
theorem slots_lt {limit : Nat} (hp : r.Paid) (hregs : r.regs.length ≤ Reg.limit)
    (hl : r.steps ≤ limit) (hb : limit ≤ 33554432) :
    r.nextSlot + r.regs.length < Word.max32 := by
  have hlimit : Reg.limit = 64 := rfl
  have hmax : Word.max32 = 4294967295 := rfl
  have hmul : r.regs.length * (r.steps + 1) ≤ 64 * 33554433 :=
    Nat.mul_le_mul (by omega) (by omega)
  unfold Paid at hp
  omega

theorem Fits.exists_instr (hf : r.Fits p fn) : ∃ i, p.instr? r.loc = some i := by
  have hlt := hf.cursor
  refine ⟨fn.code[r.cursor], ?_⟩
  rw [show r.loc = ⟨r.func, r.cursor⟩ from rfl, Program.instr?_of_function hf.function]
  exact Array.getElem?_eq_getElem hlt

theorem tick_succeedsIf {limit : Nat} (hl : r.steps ≤ limit) (hb : c → limit ≤ 33554432) :
    SucceedsIf c r.tick := by
  have hmax : Word.max = 18446744073709551615 := rfl
  unfold tick
  cases hn : Word.next? r.steps with
  | some n => exact .ok _
  | none =>
    refine Or.inr ⟨rfl, fun hc => ?_⟩
    have := hb hc
    rw [Word.next?_of_lt (by omega)] at hn
    cases hn

variable {g : Guide}

/-- A region from which a walk comes to its end. -/
structure Ready (g : Guide) (fn : Function) (r : Region) : Prop where
  fits : r.Fits g.program fn
  within : r.steps ≤ g.policy.maxRegionInstrs
  paid : r.Paid

theorem ready_entering (loc : Location) {f : Frame} (origin : Reg → Option Origin)
    (hfn : g.program.functions[loc.func]? = some fn) (hsize : f.size = fn.registers)
    (hpc : loc.pc < fn.code.size) : (entering loc f origin).Ready g fn where
  fits := fits_entering hfn hsize hpc
  within := Nat.zero_le _
  paid := by
    unfold Paid
    rw [length_entering, Nat.mul_add_one]
    exact Nat.le_add_left _ _

theorem Begins.ready {r₁ : Region} {i : Instr} (hb : Begins g r r₁ i) (hr : r.Ready g fn) :
    r₁.Ready g fn where
  fits := hb.fits hr.fits
  within := hb.within
  paid := by
    rw [tick_eq_ok hb.tick]
    exact Nat.le_trans hr.paid (Nat.mul_le_mul_left _ (Nat.le_succ _))

theorem Begins.steps_eq {r₁ : Region} {i : Instr} (hb : Begins g r r₁ i) :
    r₁.steps = r.steps + 1 := by
  rw [tick_eq_ok hb.tick]

/-- The regions that a walk goes on from, on what is left of its allowance: after an
instruction, in the arms of a split, and after both of them. -/
inductive Visits (g : Guide) (n : Nat) (r : Region) : Region → Prop where
  | on {r₁ r₂ : Region} {i : Instr} (hb : Begins g r r₁ i) (hs : r₁.step g i = .ok (.on r₂)) :
    Visits g n r r₂
  | keep {r₁ : Region} {i : Instr} {cond : Operand} {elsePc : Nat} {join : Option Nat}
    (hb : Begins g r r₁ i) (hs : r₁.step g i = .ok (.split cond elsePc join)) (taken : Bool) :
    Visits g n r (r₁.keepArm cond taken elsePc)
  | thenArm {r₁ : Region} {i : Instr} {cond : Operand} {elsePc : Nat} {join : Option Nat}
    (hb : Begins g r r₁ i) (hs : r₁.step g i = .ok (.split cond elsePc join)) :
    Visits g n r (r₁.thenArm join)
  | elseArm {r₁ a : Region} {i : Instr} {cond : Operand} {elsePc : Nat} {join : Option Nat}
    {thenEnd : Ending} (hb : Begins g r r₁ i) (hs : r₁.step g i = .ok (.split cond elsePc join))
    (ht : grow g n (r₁.thenArm join) = .ok (thenEnd, a)) (hthen : thenEnd.isGaveUp = false) :
    Visits g n r (r₁.elseArm a elsePc join)
  | rejoin {r₁ r₂ a b : Region} {i : Instr} {cond : Operand} {elsePc : Nat} {join : Option Nat}
    {thenEnd elseEnd : Ending} (hb : Begins g r r₁ i)
    (hs : r₁.step g i = .ok (.split cond elsePc join))
    (ht : grow g n (r₁.thenArm join) = .ok (thenEnd, a)) (hthen : thenEnd.isGaveUp = false)
    (he : grow g n (r₁.elseArm a elsePc join) = .ok (elseEnd, b))
    (helse : elseEnd.isGaveUp = false)
    (hj : r₁.rejoin cond a b thenEnd.isJoined elseEnd.isJoined = .ok (true, r₂)) : Visits g n r r₂

/-- A part of the walk that goes on leaves a region to go on from. -/
theorem Begins.ready_of_carries {r₁ r₂ : Region} {i : Instr} {ops : List Op}
    (hb : Begins g r r₁ i) (hr : r.Ready g fn)
    (hc : Carries g.machine .never fn g.policy.maxRegionInstrs r₁.regs.length r₁ ops true r₂) :
    r₂.Ready g fn ∧ r.steps < r₂.steps := by
  refine ⟨⟨hc.grows.fits (hb.fits hr.fits) hc.inCode, hc.within, ?_⟩, ?_⟩
  · exact (hb.carries hc).grows.paid hr.paid
  · have hsteps := hb.steps_eq
    have hle := hc.grows.steps_le
    omega

theorem Ready.thenArm {cond : Reg} {elsePc : Nat} {join : Option Nat} (hr : r.Ready g fn)
    (hi : g.program.instr? r.loc = some (.branch cond elsePc join)) : (r.thenArm join).Ready g fn :=
  ⟨fits_thenArm hr.fits hi, hr.within, hr.paid⟩

theorem Ready.elseArm {a : Region} {cond : Reg} {elsePc : Nat} {join : Option Nat} {ops : List Op}
    {joined : Bool} (hr : r.Ready g fn)
    (hi : g.program.instr? r.loc = some (.branch cond elsePc join))
    (ha : Walked g.machine .never fn g.policy.maxRegionInstrs (r.thenArm join) ops joined a) :
    (r.elseArm a elsePc join).Ready g fn :=
  ⟨fits_elseArm hr.fits hi, Nat.max_le.mpr ⟨hr.within, ha.within⟩, paid_elseArm ha.grows hr.paid⟩

theorem Ready.walked_of_grow {n : Nat} {r' : Region} {ending : Ending} (hr : r.Ready g fn)
    (h : grow g n r = .ok (ending, r')) (hend : ending.isGaveUp = false) :
    ∃ ops, Walked g.machine .never fn g.policy.maxRegionInstrs r ops ending.isJoined r' :=
  (walks_of_grow h hend).walked g.describes_machine hr.fits hr.within

/-- A walk goes on from regions of its own kind, and each of them has counted an
instruction more. -/
theorem Visits.ready {n : Nat} {r' : Region} (h : Visits g n r r') (hr : r.Ready g fn) :
    r'.Ready g fn ∧ r.steps < r'.steps := by
  cases h with
  | on hb hs =>
    obtain ⟨ops, hc⟩ := step_on g.describes_machine (hb.fits hr.fits) hb.instr hb.within hs
    exact hb.ready_of_carries hr hc
  | keep hb hs taken =>
    obtain ⟨reg, k, rfl, hreg, rfl⟩ := step_split hs
    exact hb.ready_of_carries hr
      (carries_keepArm (m := g.machine) (hb.fits hr.fits) hb.within hb.instr hreg taken)
  | thenArm hb hs =>
    obtain ⟨reg, k, rfl, -, -⟩ := step_split hs
    exact ⟨(hb.ready hr).thenArm hb.instr, Nat.le_of_eq hb.steps_eq.symm⟩
  | @elseArm r₁ a i cond elsePc join thenEnd hb hs ht hthen =>
    obtain ⟨reg, k, rfl, -, -⟩ := step_split hs
    have hr₁ := hb.ready hr
    obtain ⟨aops, ha⟩ := (hr₁.thenArm hb.instr).walked_of_grow ht hthen
    refine ⟨hr₁.elseArm hb.instr ha, ?_⟩
    have hsteps := hb.steps_eq
    have hle : r₁.steps ≤ (r₁.elseArm a elsePc join).steps := Nat.le_max_left _ _
    omega
  | rejoin hb hs ht hthen he helse hj =>
    obtain ⟨reg, k, rfl, hreg, rfl⟩ := step_split hs
    have hr₁ := hb.ready hr
    obtain ⟨aops, ha⟩ := (hr₁.thenArm hb.instr).walked_of_grow ht hthen
    obtain ⟨bops, hb'⟩ := (hr₁.elseArm hb.instr ha).walked_of_grow he helse
    obtain ⟨ops, hc⟩ := rejoin_carries hr₁.fits hb.instr hreg (arms_of_walked ha hb') hj
    exact hb.ready_of_carries hr hc

/-- A region that is no arm is specialized if its walk succeeds: it has no join to stop at. -/
theorem specialize_succeedsIf_of_grow (hr : r.Ready g fn) (hstop : r.stopAt = none)
    (h : SucceedsIf c (grow g (g.policy.maxRegionInstrs + 2) r)) :
    SucceedsIf c (r.specialize g) := by
  refine h.bind (fun walk hgrow => ?_)
  obtain ⟨ending, r'⟩ := walk
  cases ending with
  | gaveUp reason => exact .ok _
  | done => exact .ok _
  | joined =>
    obtain ⟨ops, hw⟩ := hr.walked_of_grow hgrow rfl
    have hjoin := hw.atJoin rfl
    rw [hw.grows.stopAt_eq, hstop] at hjoin
    cases hjoin

section Walk

variable (htame : c → g.heat.Tame) (hbudget : c → g.policy.maxRegionInstrs ≤ 33554432)
include htame hbudget

/-- A walk succeeds if it does from where it goes on. -/
theorem grow_succ_succeedsIf {n : Nat} (hr : r.Ready g fn)
    (hnext : ∀ r', Visits g n r r' → SucceedsIf c (grow g n r')) :
    SucceedsIf c (grow g (n + 1) r) := by
  rw [grow]
  split
  · exact .ok _
  · next hapart =>
    refine (tick_succeedsIf hr.within hbudget).bind (fun r₁ htick => ?_)
    split
    · exact .ok _
    · next hwithin =>
      have hf₁ : r₁.Fits g.program fn := hr.fits.of_tick htick
      obtain ⟨i, hi⟩ := hf₁.exists_instr
      have hb : Begins g r r₁ i := ⟨hapart, htick, Nat.le_of_not_lt hwithin, hi⟩
      have hr₁ := hb.ready hr
      have hslot : c → r₁.nextSlot < Word.max32 := by
        intro hc
        have := slots_lt hr₁.paid hf₁.limit hr₁.within (hbudget hc)
        omega
      rw [hi]
      refine (step_succeedsIf hf₁ hi hslot).bind (fun s hs => ?_)
      cases s with
      | on r₂ => exact hnext _ (.on hb hs)
      | ends r₂ => exact .ok _
      | split cond elsePc join =>
        dsimp only
        split
        · refine (Guide.hotArm_succeedsIf htame _).bind (fun arm _ => ?_)
          cases arm with
          | none => exact .ok _
          | some taken => exact hnext _ (.keep hb hs taken)
        · have hvthen : Visits g n r (r₁.thenArm join) := .thenArm hb hs
          refine (hnext _ hvthen).bind (fun thenWalk hthen => ?_)
          obtain ⟨thenEnd, a⟩ := thenWalk
          cases thenEnd with
          | gaveUp reason => exact .ok _
          | done | joined =>
            have hvelse : Visits g n r (r₁.elseArm a elsePc join) := .elseArm hb hs hthen rfl
            refine (hnext _ hvelse).bind (fun elseWalk helse => ?_)
            obtain ⟨elseEnd, b⟩ := elseWalk
            cases elseEnd with
            | gaveUp reason => exact .ok _
            | done | joined =>
              obtain ⟨aops, ha⟩ := (hvthen.ready hr).1.walked_of_grow hthen rfl
              have hrelse := (hvelse.ready hr).1
              obtain ⟨bops, hb'⟩ := hrelse.walked_of_grow helse rfl
              have hlen : b.regs.length = r₁.regs.length := hb'.grows.length_eq
              have hslots : c → b.nextSlot + r₁.regs.length ≤ Word.max32 := by
                intro hc
                rw [← hlen]
                exact Nat.le_of_lt (slots_lt (hb'.grows.paid hrelse.paid) (hlen ▸ hf₁.limit)
                  hb'.within (hbudget hc))
              refine (rejoin_succeedsIf ha hb' hslots cond).bind (fun rejoined hj => ?_)
              obtain ⟨goes, r₂⟩ := rejoined
              cases goes with
              | true => exact hnext _ (.rejoin hb hs hthen rfl helse rfl hj)
              | false => exact .ok _

/-- Every walk comes to an end, unless a number leaves its width. -/
theorem grow_succeedsIf {n : Nat} (hr : r.Ready g fn) : SucceedsIf c (grow g n r) := by
  induction n generalizing r with
  | zero => exact .ok _
  | succ n ih =>
    exact grow_succ_succeedsIf htame hbudget hr (fun r' hv => ih (hv.ready hr).1)

/-- Specializing where a function has code comes to a verdict, unless a number
leaves its width. -/
theorem specialize_succeedsIf {loc : Location} {f : Frame} {origin : Reg → Option Origin}
    (hfn : g.program.functions[loc.func]? = some fn) (hsize : f.size = fn.registers)
    (hpc : loc.pc < fn.code.size) : SucceedsIf c ((entering loc f origin).specialize g) := by
  have hr : (entering loc f origin).Ready g fn := ready_entering loc origin hfn hsize hpc
  exact specialize_succeedsIf_of_grow hr rfl (grow_succeedsIf htame hbudget hr)

end Walk

-- ============================================================================
-- The allowance
-- ============================================================================

/-- Computations that go on alike are alike. -/
theorem bind_congr_ok {α β : Type} {x : Except Fault α} {next next' : α → Except Fault β}
    (h : ∀ a, x = .ok a → next a = next' a) : (x >>= next) = (x >>= next') := by
  cases x with
  | error e => rfl
  | ok a => exact h a rfl

/-- A walk is the same on two allowances if it is from where it goes on. -/
theorem grow_succ_congr {n k : Nat}
    (hnext : ∀ r', Visits g n r r' → grow g k r' = grow g n r') :
    grow g (k + 1) r = grow g (n + 1) r := by
  rw [grow, grow]
  split
  · rfl
  · next hapart =>
    refine bind_congr_ok (fun r₁ htick => ?_)
    split
    · rfl
    · next hwithin =>
      cases hi : g.program.instr? r₁.loc with
      | none => rfl
      | some i =>
        have hb : Begins g r r₁ i := ⟨hapart, htick, Nat.le_of_not_lt hwithin, hi⟩
        refine bind_congr_ok (fun s hs => ?_)
        cases s with
        | on r₂ => exact hnext _ (.on hb hs)
        | ends r₂ => rfl
        | split cond elsePc join =>
          dsimp only
          split
          · refine bind_congr_ok (fun arm _ => ?_)
            cases arm with
            | none => rfl
            | some taken => exact hnext _ (.keep hb hs taken)
          · rw [hnext _ (.thenArm hb hs)]
            refine bind_congr_ok (fun thenWalk hthen => ?_)
            obtain ⟨thenEnd, a⟩ := thenWalk
            cases thenEnd with
            | gaveUp reason => rfl
            | done | joined =>
              dsimp only
              rw [hnext _ (.elseArm hb hs hthen rfl)]
              refine bind_congr_ok (fun elseWalk helse => ?_)
              obtain ⟨elseEnd, b⟩ := elseWalk
              cases elseEnd with
              | gaveUp reason => rfl
              | done | joined =>
                refine bind_congr_ok (fun rejoined hj => ?_)
                obtain ⟨goes, r₂⟩ := rejoined
                cases goes with
                | true => exact hnext _ (.rejoin hb hs hthen rfl helse rfl hj)
                | false => rfl

/-- The budget of instructions ends a walk before its allowance does: every
instruction that is counted pays for one of the allowance. -/
theorem grow_succ_eq {n : Nat} (hr : r.Ready g fn)
    (hn : g.policy.maxRegionInstrs + 2 ≤ n + r.steps) : grow g (n + 1) r = grow g n r := by
  induction n generalizing r with
  | zero =>
    have := hr.within
    omega
  | succ n ih =>
    refine grow_succ_congr (fun r' hv => ?_)
    obtain ⟨hr', hlt⟩ := hv.ready hr
    exact ih hr' (by omega)

/-- No larger allowance makes a difference to specialization. -/
theorem grow_eq_of_le {n : Nat} (hr : r.Ready g fn) (hn : g.policy.maxRegionInstrs + 2 ≤ n) :
    grow g n r = grow g (g.policy.maxRegionInstrs + 2) r := by
  induction hn with
  | refl => rfl
  | step hn ih =>
    have hle : g.policy.maxRegionInstrs + 2 ≤ _ := hn
    rw [grow_succ_eq hr (by omega), ih]

-- ============================================================================
-- Verdicts
-- ============================================================================

/-- With a budget of at most 2^25 instructions and counts that can be doubled,
specializing where a function has code always comes to a verdict. -/
theorem specialize_succeeds {g : Guide} (htame : g.heat.Tame)
    (hbudget : g.policy.maxRegionInstrs ≤ 33554432) {loc : Location} {f : Frame}
    {origin : Reg → Option Origin} (hfn : g.program.functions[loc.func]? = some fn)
    (hsize : f.size = fn.registers) (hpc : loc.pc < fn.code.size) :
    Succeeds ((entering loc f origin).specialize g) :=
  (specialize_succeedsIf (fun _ : True => htame) (fun _ => hbudget) hfn hsize hpc).succeeds trivial

/-- Specializing a region gives a verdict, and no larger allowance for the walk
would give another. -/
structure ComesToVerdict (g : Guide) (r : Region) : Prop where
  verdict : ∃ v, r.specialize g = .ok v
  allowance : ∀ n, g.policy.maxRegionInstrs + 2 ≤ n →
    grow g n r = grow g (g.policy.maxRegionInstrs + 2) r

theorem comesToVerdict_entering {g : Guide} (htame : g.heat.Tame)
    (hbudget : g.policy.maxRegionInstrs ≤ 33554432) (loc : Location) {f : Frame}
    (origin : Reg → Option Origin) (hfn : g.program.functions[loc.func]? = some fn)
    (hsize : f.size = fn.registers) (hpc : loc.pc < fn.code.size) :
    (entering loc f origin).ComesToVerdict g where
  verdict := specialize_succeeds htame hbudget hfn hsize hpc
  allowance := fun _ hn => grow_eq_of_le (ready_entering loc origin hfn hsize hpc) hn

/-- Specialization never fails: not after a merge point, whatever its greens, not
after a promotion site, whatever register is fixed, and not at any other address
that has an instruction. -/
theorem specialize_never_fails {g : Guide} (htame : g.heat.Tame)
    (hbudget : g.policy.maxRegionInstrs ≤ 33554432) {loc : Location} {f : Frame}
    (hi : g.program.instr? loc = some i) (hfn : g.program.functions[loc.func]? = some fn)
    (hsize : f.size = fn.registers) :
    (i.isMergePoint = true → ∀ greens, ∃ r, atMergePoint loc greens f = .ok r ∧
      r.ComesToVerdict g) ∧
    (∀ site, i = .promote site → ∀ reg, ∃ r, atPromotion loc reg f = .ok r ∧
      r.ComesToVerdict g) ∧
    (generic loc f).ComesToVerdict g := by
  have hcode : fn.code[loc.pc]? = some i := by
    rw [← Program.instr?_of_function hfn]
    exact hi
  have hpc : loc.pc < fn.code.size := Program.lt_of_getElem? hcode
  have hnext : inWidth loc.next? = .ok loc.after := by
    unfold Location.next?
    rw [Program.next?_cursor hfn hpc]
    rfl
  have hafter : loc.pc + 1 ∈ i.successors loc.pc → ∀ origin,
      (entering loc.after f origin).ComesToVerdict g :=
    fun hmem origin => comesToVerdict_entering htame hbudget loc.after origin hfn hsize
      (Program.successor_lt hfn hcode hmem)
  refine ⟨fun hm greens => ?_, fun site hs reg => ?_, ?_⟩
  · have hmem : loc.pc + 1 ∈ i.successors loc.pc := by
      cases i with
      | mergePoint gs => exact List.mem_singleton.mpr rfl
      | _ => cases hm
    unfold atMergePoint
    rw [hnext]
    exact ⟨_, rfl, hafter hmem _⟩
  · have hmem : loc.pc + 1 ∈ i.successors loc.pc := by
      rw [hs]
      exact List.mem_singleton.mpr rfl
    unfold atPromotion
    rw [hnext]
    exact ⟨_, rfl, hafter hmem _⟩
  · exact comesToVerdict_entering htame hbudget loc _ hfn hsize hpc

/-- A loop with two splits, one in an arm of the other. The outer one has its join
behind it, and the inner one meets again where the other arm starts. -/
def tangled : Function :=
  { name := "tangled", registers := 1,
    code := #[.mergePoint [], .input 0, .branch 0 5 (some 0), .branch 0 5 (some 5), .promote 0,
      .jump 0] }

/-- The loop as a program. -/
def tangledProgram : Program :=
  { functions := #[tangled], entry := 0, facts := .ofFunctions #[tangled], faultless := by decide,
    facts_eq := rfl }

/-- Joins that are no joins do not make specialization fail. -/
theorem specialize_never_fails_tangled :
    (∃ r, atMergePoint ⟨0, 0⟩ [0] (Frame.blank 1) = .ok r ∧
      r.ComesToVerdict ⟨tangledProgram, {}, {}, {}⟩) ∧
    (∃ r, atPromotion ⟨0, 4⟩ 0 (Frame.blank 1) = .ok r ∧
      r.ComesToVerdict ⟨tangledProgram, {}, {}, {}⟩) ∧
    (generic ⟨0, 3⟩ (Frame.blank 1)).ComesToVerdict ⟨tangledProgram, {}, {}, {}⟩ := by
  have htame : ({} : Heat).Tame := by decide
  have hbudget : ({} : Policy).maxRegionInstrs ≤ 33554432 := by decide
  have hfn : tangledProgram.functions[0]? = some tangled := rfl
  exact ⟨(specialize_never_fails htame hbudget rfl hfn rfl).1 rfl [0],
    (specialize_never_fails htame hbudget rfl hfn rfl).2.1 0 rfl 0,
    (specialize_never_fails htame hbudget rfl hfn rfl).2.2⟩

end Region

end HotPath
