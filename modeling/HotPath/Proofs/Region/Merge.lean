/-
  HotPath.Proofs.Region.Merge

  Two arms of a split put together again. Where both meet, the operations that
  fill new slots change nothing that the machine would notice
  (`Region.woven_of_weave`); where one arm leaves, the walk goes on from the
  other. `Region.rejoin_carries` says so of every way in which arms end.
-/
import HotPath.Proofs.Region.Step

namespace HotPath

open Trace Trace.Progress

namespace Region

variable {call : Machine.Callee}

-- ============================================================================
-- One register
-- ============================================================================

/-- A register that is kept is as both arms have it. -/
theorem mergeReg_eq_keep {t e b : Binding} (h : mergeReg t e = .keep b) :
    (b = t ∨ b = e) ∧ ∀ slots, b.cell slots = t.cell slots ∧ b.cell slots = e.cell slots := by
  unfold mergeReg at h
  split at h
  · next heq =>
    cases h
    exact ⟨Or.inl rfl, fun slots => ⟨rfl, by rw [heq]⟩⟩
  · split at h
    · next hsame =>
      -- both are fixed to one value
      have hcell : ∀ slots, t.cell slots = e.cell slots := by
        intro slots
        cases t with
        | slot s d => exact absurd hsame Bool.false_ne_true
        | fixed a =>
          cases e with
          | slot s d => exact absurd hsame Bool.false_ne_true
          | fixed c =>
            have hv : a.value = c.value := eq_of_beq hsame
            simp only [Binding.cell, hv]
      cases h
      cases t.isPinned with
      | true => exact ⟨Or.inl rfl, fun slots => ⟨rfl, hcell slots⟩⟩
      | false => exact ⟨Or.inr rfl, fun slots => ⟨(hcell slots).symm, rfl⟩⟩
    · split at h
      · cases h
      · split at h
        · cases h
        · cases h

/-- A register that moves is tainted in both arms or in none. -/
theorem mergeReg_eq_widen {t e : Binding} (h : mergeReg t e = .widen) :
    t.isTainted = e.isTainted := by
  unfold mergeReg at h
  split at h
  · cases h
  · split at h
    · cases h
    · split at h
      · cases h
      · split at h
        · cases h
        · next hn => exact Decidable.not_not.mp hn

theorem materialize_below {b : Binding} {next n : Nat} (hb : b.Below n) (hn : next < n) :
    (materialize next b).Below n := by
  cases b with
  | fixed k => exact hn
  | slot s t => exact ⟨hn, hb s rfl⟩

/-- Filling a slot with a register. -/
theorem run_materialize {b : Binding} {next : Slot} {slots : Array Value}
    (hb : b.Below slots.size) (hn : next < slots.size) (io : Console) :
    (materialize next b).run call slots io =
      .going (slots.setIfInBounds next (b.cell slots).value) io := by
  cases b with
  | fixed k =>
    rw [materialize, Op.run, store, if_pos hn]
    rfl
  | slot s t =>
    have hs : s < slots.size := hb s rfl
    rw [materialize, Op.run, Array.getElem?_eq_getElem hs]
    simp only [inRange, withValue, store, if_pos hn, Binding.cell, Array.getD_eq_getD_getElem?,
      Array.getElem?_eq_getElem hs, Option.getD_some]

-- ============================================================================
-- All registers
-- ============================================================================

/-- Operations that move registers to where other bindings expect them, and
change no slot below a bound. -/
def Fills (call : Machine.Callee) (next limit : Nat) (ops : List Op) (bs bs' : List Binding) :
    Prop :=
  ∀ slots io, limit ≤ slots.size → ∃ slots', Op.runAll call slots io ops = .going slots' io ∧
    AgreeBelow next slots slots' ∧ bs'.map (Binding.cell slots') = bs.map (Binding.cell slots)

theorem Fills.nil (call : Machine.Callee) (next limit : Nat) : Fills call next limit [] [] [] :=
  fun slots _ _ => ⟨slots, rfl, fun _ _ => rfl, rfl⟩

/-- A register that stays where it is. -/
theorem Fills.keep {next limit : Nat} {ops : List Op} {bs bs' : List Binding} {b c : Binding}
    (h : Fills call next limit ops bs bs') (hc : ∀ slots, c.cell slots = b.cell slots)
    (hb : c.Below next) : Fills call next limit ops (b :: bs) (c :: bs') := by
  intro slots io hs
  obtain ⟨slots', hrun, hagree, hmap⟩ := h slots io hs
  refine ⟨slots', hrun, hagree, ?_⟩
  rw [List.map_cons, List.map_cons, hmap, ← Binding.cell_congr hagree hb, hc]

/-- A register that moves to a new slot. -/
theorem Fills.widen {next limit : Nat} {ops : List Op} {bs bs' : List Binding} {b : Binding}
    {tainted : Bool} (h : Fills call (next + 1) limit ops bs bs') (hn : next < limit)
    (hb : b.Below next) (hbs : ∀ c ∈ bs, c.Below next) (ht : b.isTainted = tainted) :
    Fills call next limit (materialize next b :: ops) (b :: bs) (.slot next tainted :: bs') := by
  intro slots io hs
  have hnext : next < slots.size := by omega
  have hfilled := agreeBelow_set (Nat.le_refl next) slots (b.cell slots).value
  obtain ⟨slots', hrun, hagree, hmap⟩ :=
    h (slots.setIfInBounds next (b.cell slots).value) io (by rw [Array.size_setIfInBounds]; exact hs)
  refine ⟨slots', ?_, hfilled.trans (hagree.mono (Nat.le_succ _)), ?_⟩
  · rw [Op.runAll_cons, run_materialize (hb.mono (Nat.le_of_lt hnext)) hnext]
    exact hrun
  · have hslot : slots'.getD next .nil = (b.cell slots).value := by
      rw [← hagree next (Nat.lt_succ_self _), getD_set_self hnext]
    have hrest : bs.map (Binding.cell (slots.setIfInBounds next (b.cell slots).value)) =
        bs.map (Binding.cell slots) :=
      List.map_congr_left (fun c hc => (Binding.cell_congr hfilled (hbs c hc)).symm)
    have hcell : Binding.cell slots' (.slot next tainted) = b.cell slots := by
      rw [Binding.cell, hslot, ← ht, ← Binding.cell_tainted slots b]
    rw [List.map_cons, List.map_cons, hmap, hrest, hcell]

/-- What merging the registers of two arms gives. -/
structure Woven (call : Machine.Callee) (next : Slot) (ts es : List Binding) (w : Weave) : Prop where
  nextSlot_le : next ≤ w.nextSlot
  nextSlot_bound : w.nextSlot ≤ next + ts.length
  length_eq : w.regs.length = ts.length
  below : ∀ b ∈ w.regs, b.Below w.nextSlot
  thenBelow : Op.AllBelow w.nextSlot w.thenOps
  elseBelow : Op.AllBelow w.nextSlot w.elseOps
  thenFills : Fills call next w.nextSlot w.thenOps ts w.regs
  elseFills : Fills call next w.nextSlot w.elseOps es w.regs

/-- Registers are merged one by one: the first is kept, or moves to the next
slot, and the others are merged from there on. -/
theorem weave_cons_eq_ok {next : Slot} {t e : Binding} {ts es : List Binding} {w : Weave}
    (h : weave next (t :: ts) (e :: es) = .ok w) :
    (∃ b w', mergeReg t e = .keep b ∧ weave next ts es = .ok w' ∧
      w = { w' with regs := b :: w'.regs }) ∨
    (∃ w', (∀ b, mergeReg t e ≠ .keep b) ∧ weave (next + 1) ts es = .ok w' ∧
      w = ⟨.slot next t.isTainted :: w'.regs, materialize next t :: w'.thenOps,
        materialize next e :: w'.elseOps, w'.nextSlot⟩) := by
  rw [weave] at h
  cases hm : mergeReg t e with
  | keep b =>
    rw [hm] at h
    obtain ⟨w', hw, h⟩ := bind_eq_ok.mp h
    cases h
    exact Or.inl ⟨b, w', rfl, hw, rfl⟩
  | widen | clash =>
    rw [hm] at h
    obtain ⟨next', hnext, h⟩ := bind_eq_ok.mp h
    obtain ⟨w', hw, h⟩ := bind_eq_ok.mp h
    cases h
    unfold nextSlot? at hnext
    split at hnext
    · cases hnext
      exact Or.inr ⟨w', (fun b hb => by cases hb), hw, rfl⟩
    · cases hnext

/-- Registers that do not clash are merged without changing what either arm
stands for. -/
theorem woven_of_weave {next : Slot} {i : Nat} {ts es : List Binding} {w : Weave}
    (hlen : ts.length = es.length) (hclash : firstClash? i ts es = none)
    (ht : ∀ b ∈ ts, b.Below next) (he : ∀ b ∈ es, b.Below next)
    (h : weave next ts es = .ok w) : Woven call next ts es w := by
  induction ts generalizing i es next w with
  | nil =>
    cases es with
    | cons e es => cases hlen
    | nil =>
      cases h
      exact ⟨Nat.le_refl _, Nat.le_refl _, rfl, nofun, trivial, trivial, Fills.nil _ _ _,
        Fills.nil _ _ _⟩
  | cons t ts ih =>
    cases es with
    | nil => cases hlen
    | cons e es =>
      have hlen' : ts.length = es.length := Nat.succ.inj hlen
      have ht₀ := ht t List.mem_cons_self
      have he₀ := he e List.mem_cons_self
      have hts : ∀ b ∈ ts, b.Below next := fun b hb => ht b (List.mem_cons_of_mem _ hb)
      have hes : ∀ b ∈ es, b.Below next := fun b hb => he b (List.mem_cons_of_mem _ hb)
      rw [firstClash?] at hclash
      rcases weave_cons_eq_ok h with ⟨b, w', hm, hw, rfl⟩ | ⟨w', hm, hw, rfl⟩
      · rw [hm] at hclash
        have ih := ih hlen' hclash hts hes hw
        obtain ⟨hor, hcell⟩ := mergeReg_eq_keep hm
        have hb : b.Below next := by
          rcases hor with rfl | rfl
          · exact ht₀
          · exact he₀
        refine ⟨ih.nextSlot_le, ?_, congrArg Nat.succ ih.length_eq, ?_, ih.thenBelow, ih.elseBelow,
          ih.thenFills.keep (fun s => (hcell s).1) hb, ih.elseFills.keep (fun s => (hcell s).2) hb⟩
        · exact Nat.le_trans ih.nextSlot_bound (Nat.add_le_add_left (Nat.le_succ _) _)
        · intro c hc
          rcases List.mem_cons.mp hc with rfl | hc
          · exact hb.mono ih.nextSlot_le
          · exact ih.below c hc
      · cases hwiden : mergeReg t e with
        | keep b => exact absurd hwiden (hm b)
        | clash c =>
          rw [hwiden] at hclash
          cases hclash
        | widen =>
          rw [hwiden] at hclash
          have ih := ih hlen' hclash (fun b hb => (hts b hb).mono (Nat.le_succ _))
            (fun b hb => (hes b hb).mono (Nat.le_succ _)) hw
          have hlt : next < w'.nextSlot := ih.nextSlot_le
          refine ⟨Nat.le_of_lt hlt, ?_, congrArg Nat.succ ih.length_eq, ?_,
            ⟨materialize_below (ht₀.mono (Nat.le_of_lt hlt)) hlt, ih.thenBelow⟩,
            ⟨materialize_below (he₀.mono (Nat.le_of_lt hlt)) hlt, ih.elseBelow⟩,
            ih.thenFills.widen hlt ht₀ hts rfl,
            ih.elseFills.widen hlt he₀ hes (mergeReg_eq_widen hwiden).symm⟩
          · rw [List.length_cons, ← Nat.succ_add_eq_add_succ]
            exact ih.nextSlot_bound
          · intro c hc
            rcases List.mem_cons.mp hc with rfl | hc
            · intro s hs
              cases hs
              exact hlt
            · exact ih.below c hc

/-- Moving registers takes the machine nowhere. -/
theorem covers_of_fills {m : Machine} {next limit : Nat} {ops : List Op} {r r' : Region}
    (h : Fills call next limit ops r.regs r'.regs) (hl : r'.loc = r.loc) :
    Covers m call limit r ops (some r') := by
  intro slots io hs
  obtain ⟨slots', hrun, -, hmap⟩ := h slots io hs
  rw [hrun]
  refine ⟨r', rfl, ?_⟩
  have hspot : r'.spot slots' io = r.spot slots io := by
    unfold spot Binding.frame
    rw [hl, hmap]
  rw [hspot]
  exact .refl

-- ============================================================================
-- Putting arms together
-- ============================================================================

/-- A walk from a region to its end, or to the join at which it stops. -/
structure Walked (m : Machine) (call : Machine.Callee) (fn : Function) (limit : Nat) (r : Region)
    (ops : List Op) (joined : Bool) (r' : Region) : Prop
    extends Carries m call fn limit 0 r ops joined r' where
  atJoin : joined = true → r'.stopAt = some r'.cursor

/-- Two arms have met: they stopped at one instruction of one function, with
equally many registers. -/
structure Met (a b : Region) : Prop where
  func_eq : a.func = b.func
  cursor_eq : a.cursor = b.cursor
  length_eq : a.regs.length = b.regs.length

theorem met_iff {a b : Region} :
    Met a b ↔ a.shape.compatible b.shape = true ∧ a.func = b.func := by
  simp only [Shape.compatible, shape, List.length_map, Bool.and_eq_true, beq_iff_eq]
  exact ⟨fun h => ⟨⟨h.cursor_eq, h.length_eq⟩, h.func_eq⟩, fun h => ⟨h.2, h.1.1, h.1.2⟩⟩

theorem Met.loc_eq {a b : Region} (h : Met a b) : a.loc = b.loc := by
  unfold loc
  rw [h.func_eq, h.cursor_eq]

/-- The region from which the walk goes on after two arms. -/
def woven (a b : Region) (w : Weave) : Region :=
  { a with regs := w.regs, ops := #[], nextSlot := w.nextSlot, steps := max a.steps b.steps }

/-- Arms that merge have met, and none of their registers clash. -/
theorem mergeArms_eq_merged {a b q : Region} {thenOps elseOps : List Op}
    (h : mergeArms a b = .ok (.merged thenOps elseOps q)) :
    Met a b ∧ firstClash? 0 a.regs b.regs = none ∧
      ∃ w, weave (max a.nextSlot b.nextSlot) a.regs b.regs = .ok w ∧
        thenOps = a.ops.toList ++ w.thenOps ∧ elseOps = b.ops.toList ++ w.elseOps ∧
        q = woven a b w := by
  unfold mergeArms at h
  split at h
  · next hcompat =>
    cases hclash : firstClash? 0 a.regs b.regs with
    | some x =>
      rw [hclash] at h
      cases h
    | none =>
      rw [hclash] at h
      obtain ⟨w, hw, h⟩ := bind_eq_ok.mp h
      cases h
      exact ⟨met_iff.mpr hcompat, rfl, w, hw, rfl, rfl, rfl⟩
  · cases h

/-- What merging two arms at one place gives. -/
theorem woven_of_mergeArms (call : Machine.Callee) {a b q : Region} {thenOps elseOps : List Op}
    (ha : ∀ c ∈ a.regs, c.Below a.nextSlot) (hb : ∀ c ∈ b.regs, c.Below b.nextSlot)
    (h : mergeArms a b = .ok (.merged thenOps elseOps q)) :
    a.loc = b.loc ∧ ∃ w, Woven call (max a.nextSlot b.nextSlot) a.regs b.regs w ∧
      thenOps = a.ops.toList ++ w.thenOps ∧ elseOps = b.ops.toList ++ w.elseOps ∧
      q = woven a b w := by
  obtain ⟨hmet, hclash, w, hw, ht, he, hq⟩ := mergeArms_eq_merged h
  exact ⟨hmet.loc_eq, w, woven_of_weave hmet.length_eq hclash
    (fun c hc => (ha c hc).mono (Nat.le_max_left _ _))
    (fun c hc => (hb c hc).mono (Nat.le_max_right _ _)) hw, ht, he, hq⟩

section Split

variable {m : Machine} {fn : Function} {p : Program} {r a b : Region} {cond : Reg} {elsePc : Nat}
  {join : Option Nat} {c : Binding} {limit : Nat}

/-- A split whose two arms are covered. -/
theorem carries_closeSplit {regs : List Binding} {pc k spent steps : Nat}
    {thenOps elseOps : List Op} {goes : Bool} (hf : r.Fits p fn)
    (hi : m.program.instr? r.loc = some (.branch cond elsePc join)) (hc : r.regs[cond]? = some c)
    (hlen : regs.length = r.regs.length) (hbelow : ∀ b ∈ regs, b.Below k) (hpc : pc < fn.code.size)
    (hk : r.nextSlot ≤ k) (hsteps : steps ≤ spent) (hspent : r.steps ≤ spent) (hl : spent ≤ limit)
    (hbudget : k + r.regs.length * r.steps ≤ r.nextSlot + r.regs.length * spent + r.regs.length)
    (ht : Op.AllBelow k thenOps) (he : Op.AllBelow k elseOps)
    (hct : Covers m call k (r.jump (r.cursor + 1)) thenOps
      (bif goes then some { r with regs, cursor := pc, nextSlot := k, steps } else none))
    (hce : Covers m call k (r.jump elsePc) elseOps
      (bif goes then some { r with regs, cursor := pc, nextSlot := k, steps } else none)) :
    Carries m call fn limit r.regs.length r [.branch c.operand thenOps elseOps] goes
      (closeSplit { r with regs, cursor := pc, nextSlot := k, steps } c.operand spent thenOps
        elseOps) where
  grows := by
    have hcond := (hf.below_of_get hc).mono hk
    refine ⟨rfl, rfl, rfl, Array.toList_push, hlen, ?_, hk, ?_, hbelow,
      Op.allBelow_singleton.mpr ⟨hcond.operand, ht, he⟩⟩
    · exact Nat.le_trans hspent (Nat.le_max_right _ _)
    · show k + r.regs.length * r.steps ≤
        r.nextSlot + r.regs.length * max steps spent + r.regs.length
      rw [Nat.max_eq_right hsteps]
      exact hbudget
  inCode := hpc
  within := Nat.max_le.mpr ⟨Nat.le_trans hsteps hl, hl⟩
  covers := by
    have h := covers_branch hi hc ((hf.below_of_get hc).mono hk) hct hce
    cases goes with
    | false => exact h
    | true =>
      exact Covers.next_congr (q := { r with regs, cursor := pc, nextSlot := k, steps }) rfl rfl h

/-- What two walked arms of a split have to do with each other: the second starts
from what the first has taken. -/
structure Arms (m : Machine) (call : Machine.Callee) (fn : Function) (limit : Nat) (r : Region)
    (elsePc : Nat) (a b : Region) (thenJoined elseJoined : Bool) : Prop where
  nextSlot_le : r.nextSlot ≤ a.nextSlot
  nextSlot_le' : a.nextSlot ≤ b.nextSlot
  steps_le : r.steps ≤ a.steps
  steps_le' : a.steps ≤ b.steps
  within : b.steps ≤ limit
  budget : b.nextSlot + r.regs.length * r.steps ≤ r.nextSlot + r.regs.length * b.steps
  thenFits : a.func = r.func ∧ a.regs.length = r.regs.length ∧ a.cursor < fn.code.size
  elseFits : b.func = r.func ∧ b.regs.length = r.regs.length ∧ b.cursor < fn.code.size
  thenRegs : ∀ c ∈ a.regs, c.Below a.nextSlot
  elseRegs : ∀ c ∈ b.regs, c.Below b.nextSlot
  thenBelow : Op.AllBelow b.nextSlot a.ops.toList
  elseBelow : Op.AllBelow b.nextSlot b.ops.toList
  thenCovers : Covers m call b.nextSlot (r.jump (r.cursor + 1)) a.ops.toList
    (bif thenJoined then some a else none)
  elseCovers : Covers m call b.nextSlot (r.jump elsePc) b.ops.toList
    (bif elseJoined then some b else none)

theorem arms_of_walked {aops bops : List Op} {thenJoined elseJoined : Bool}
    (ha : Walked m call fn limit (r.thenArm join) aops thenJoined a)
    (hb : Walked m call fn limit (r.elseArm a elsePc join) bops elseJoined b) :
    Arms m call fn limit r elsePc a b thenJoined elseJoined := by
  have hnext : r.nextSlot ≤ a.nextSlot := ha.grows.nextSlot_le
  have hsteps : r.steps ≤ a.steps := ha.grows.steps_le
  have hnext' : (r.elseArm a elsePc join).nextSlot = a.nextSlot := Nat.max_eq_right hnext
  have hsteps' : (r.elseArm a elsePc join).steps = a.steps := Nat.max_eq_right hsteps
  have hle : a.nextSlot ≤ b.nextSlot := hnext' ▸ hb.grows.nextSlot_le
  have haops : aops = a.ops.toList := ha.grows.ops_eq.symm
  have hbops : bops = b.ops.toList := hb.grows.ops_eq.symm
  subst haops hbops
  refine ⟨hnext, hle, hsteps, hsteps' ▸ hb.grows.steps_le, hb.within, ?_,
    ⟨ha.grows.func_eq, ha.grows.length_eq, ha.inCode⟩,
    ⟨hb.grows.func_eq, hb.grows.length_eq, hb.inCode⟩, ha.grows.below, hb.grows.below,
    ha.grows.allBelow.mono hle, hb.grows.allBelow, ha.covers.mono hle, hb.covers⟩
  have h₁ : a.nextSlot + r.regs.length * r.steps ≤ r.nextSlot + r.regs.length * a.steps :=
    ha.grows.budget
  have h₂ : b.nextSlot + r.regs.length * (r.elseArm a elsePc join).steps ≤
      (r.elseArm a elsePc join).nextSlot + r.regs.length * b.steps := hb.grows.budget
  rw [hnext', hsteps'] at h₂
  omega

section Ways

variable (hf : r.Fits p fn) (hi : m.program.instr? r.loc = some (.branch cond elsePc join))
  (hc : r.regs[cond]? = some c)
include hf hi hc

/-- The walk goes on from a region that both arms come to, as far as they do not
leave. -/
theorem Arms.carries_on {thenJoined elseJoined : Bool} {q : Region} {k : Nat}
    {thenOps elseOps : List Op} (h : Arms m call fn limit r elsePc a b thenJoined elseJoined)
    (hk : b.nextSlot ≤ k) (hk' : k ≤ b.nextSlot + r.regs.length)
    (hq : q.func = r.func ∧ q.regs.length = r.regs.length ∧ q.cursor < fn.code.size)
    (hregs : ∀ c ∈ q.regs, c.Below k) (hsteps : q.steps ≤ b.steps)
    (ht : Op.AllBelow k thenOps) (he : Op.AllBelow k elseOps)
    (hct : Covers m call k (r.jump (r.cursor + 1)) thenOps (some q))
    (hce : Covers m call k (r.jump elsePc) elseOps (some q)) :
    Carries m call fn limit r.regs.length r [.branch c.operand thenOps elseOps] true
      (closeSplit { r with regs := q.regs, cursor := q.cursor, nextSlot := k,
                           steps := max r.steps q.steps } c.operand b.steps thenOps elseOps) := by
  obtain ⟨hfunc, hlen, hcode⟩ := hq
  have hspent : r.steps ≤ b.steps := Nat.le_trans h.steps_le h.steps_le'
  have hnext : r.nextSlot ≤ b.nextSlot := Nat.le_trans h.nextSlot_le h.nextSlot_le'
  have hbudget := h.budget
  have hloc : (⟨r.func, q.cursor⟩ : Location) = q.loc := by
    rw [loc, hfunc]
  exact carries_closeSplit hf hi hc hlen hregs hcode (Nat.le_trans hnext hk)
    (Nat.max_le.mpr ⟨hspent, hsteps⟩) hspent h.within (by omega) ht he (hct.next_congr hloc rfl)
    (hce.next_congr hloc rfl)

/-- The walk goes on from the first arm, and whatever takes the second leaves. -/
theorem Arms.carries_first {elseJoined : Bool} (h : Arms m call fn limit r elsePc a b true elseJoined)
    {elseOps : List Op} (hbelow : Op.AllBelow b.nextSlot elseOps)
    (hcov : Covers m call b.nextSlot (r.jump elsePc) elseOps none) :
    Carries m call fn limit r.regs.length r [.branch c.operand a.ops.toList elseOps] true
      (((r.reserve b).continueFrom a).closeSplit c.operand b.steps a.ops.toList elseOps) := by
  have hnext := h.nextSlot_le
  have hnext' := h.nextSlot_le'
  have hk : max (max r.nextSlot b.nextSlot) a.nextSlot = b.nextSlot := by omega
  have hregs : ∀ c ∈ a.regs, c.Below b.nextSlot := fun c hc => (h.thenRegs c hc).mono hnext'
  have hcarries := h.carries_on hf hi hc (Nat.le_refl _) (Nat.le_add_right _ _) h.thenFits hregs
    h.steps_le' h.thenBelow hbelow h.thenCovers hcov.of_none
  rw [← hk] at hcarries
  exact hcarries

/-- The walk goes on from the second arm, and whatever takes the first leaves. -/
theorem Arms.carries_second (h : Arms m call fn limit r elsePc a b false true) :
    Carries m call fn limit r.regs.length r [.branch c.operand a.ops.toList b.ops.toList] true
      (((r.reserve a).continueFrom b).closeSplit c.operand b.steps a.ops.toList
        b.ops.toList) := by
  have hnext := h.nextSlot_le
  have hnext' := h.nextSlot_le'
  have hk : max (max r.nextSlot a.nextSlot) b.nextSlot = b.nextSlot := by omega
  have hcarries := h.carries_on hf hi hc (Nat.le_refl _) (Nat.le_add_right _ _) h.elseFits
    h.elseRegs (Nat.le_refl _) h.thenBelow h.elseBelow h.thenCovers.of_none h.elseCovers
  rw [← hk] at hcarries
  exact hcarries

/-- Both arms leave. -/
theorem Arms.carries_neither (h : Arms m call fn limit r elsePc a b false false) :
    Carries m call fn limit r.regs.length r [.branch c.operand a.ops.toList b.ops.toList] false
      ((r.reserve b).closeSplit c.operand b.steps a.ops.toList b.ops.toList) := by
  have hspent : r.steps ≤ b.steps := Nat.le_trans h.steps_le h.steps_le'
  have hnext : r.nextSlot ≤ b.nextSlot := Nat.le_trans h.nextSlot_le h.nextSlot_le'
  have hbudget := h.budget
  have hk : max r.nextSlot b.nextSlot = b.nextSlot := Nat.max_eq_right hnext
  have hcarries : Carries m call fn limit r.regs.length r [.branch c.operand a.ops.toList b.ops.toList]
      false (closeSplit { r with regs := r.regs, cursor := r.cursor, nextSlot := b.nextSlot,
                                 steps := r.steps } c.operand b.steps a.ops.toList b.ops.toList) :=
    carries_closeSplit hf hi hc rfl (fun c hc => (hf.below c hc).mono hnext) hf.cursor hnext hspent
      hspent h.within (by omega) h.thenBelow h.elseBelow h.thenCovers h.elseCovers
  rw [← hk] at hcarries
  exact hcarries

/-- The arms meet and merge. -/
theorem Arms.carries_both {q : Region} {thenOps elseOps : List Op}
    (h : Arms m call fn limit r elsePc a b true true)
    (hmerge : mergeArms a b = .ok (.merged thenOps elseOps q)) :
    Carries m call fn limit r.regs.length r [.branch c.operand thenOps elseOps] true
      ((r.continueFrom q).closeSplit c.operand b.steps thenOps elseOps) := by
  obtain ⟨hloc, w, hw, rfl, rfl, hq⟩ := woven_of_mergeArms call h.thenRegs h.elseRegs hmerge
  obtain ⟨hfunc, hlen, hcode⟩ := h.thenFits
  have hbound := hw.nextSlot_bound
  have hle := hw.nextSlot_le
  rw [Nat.max_eq_right h.nextSlot_le'] at hbound hle
  have hqregs : q.regs = w.regs := by rw [hq]; rfl
  have hqloc : q.loc = a.loc := by rw [hq]; rfl
  have hqfits : q.func = r.func ∧ q.regs.length = r.regs.length ∧ q.cursor < fn.code.size := by
    subst hq
    exact ⟨hfunc, hw.length_eq.trans hlen, hcode⟩
  have hqsteps : q.steps ≤ b.steps := by
    subst hq
    exact Nat.max_le.mpr ⟨h.steps_le', Nat.le_refl _⟩
  have hqnext : max r.nextSlot q.nextSlot = w.nextSlot := by
    subst hq
    exact Nat.max_eq_right (Nat.le_trans (Nat.le_trans h.nextSlot_le h.nextSlot_le') hle)
  have hct : Covers m call w.nextSlot (r.jump (r.cursor + 1)) (a.ops.toList ++ w.thenOps)
      (some q) :=
    (h.thenCovers.mono hle).append (covers_of_fills (hqregs ▸ hw.thenFills) hqloc)
  have hce : Covers m call w.nextSlot (r.jump elsePc) (b.ops.toList ++ w.elseOps) (some q) :=
    (h.elseCovers.mono hle).append (covers_of_fills (hqregs ▸ hw.elseFills) (hqloc.trans hloc))
  have hcarries := h.carries_on hf hi hc hle (hlen ▸ hbound) hqfits (hqregs ▸ hw.below) hqsteps
    (Op.allBelow_append.mpr ⟨h.thenBelow.mono hle, hw.thenBelow⟩)
    (Op.allBelow_append.mpr ⟨h.elseBelow.mono hle, hw.elseBelow⟩) hct hce
  rw [← hqnext] at hcarries
  exact hcarries

/-- Two walked arms together cover their split. -/
theorem rejoin_carries {r' : Region} {goes thenJoined elseJoined : Bool}
    (harms : Arms m call fn limit r elsePc a b thenJoined elseJoined)
    (h : r.rejoin c.operand a b thenJoined elseJoined = .ok (goes, r')) :
    ∃ ops, Carries m call fn limit r.regs.length r ops goes r' := by
  unfold rejoin at h
  cases thenJoined with
  | false =>
    cases elseJoined with
    | false =>
      cases h
      exact ⟨_, harms.carries_neither hf hi hc⟩
    | true =>
      cases h
      exact ⟨_, harms.carries_second hf hi hc⟩
  | true =>
    cases elseJoined with
    | false =>
      cases h
      exact ⟨_, harms.carries_first hf hi hc harms.elseBelow harms.elseCovers⟩
    | true =>
      obtain ⟨merge, hmerge, h⟩ := bind_eq_ok.mp h
      cases merge with
      | merged thenOps elseOps q =>
        cases h
        exact ⟨_, harms.carries_both hf hi hc hmerge⟩
      | clash a' b' reg conflict =>
        cases h
        -- the second arm leaves at the join, where the interpreter takes over
        obtain ⟨hfunc, hlen, hcode⟩ := harms.elseFits
        have hfit : b.Fits p fn :=
          ⟨hfunc ▸ hf.function, hlen.trans hf.registers, hcode, harms.elseRegs⟩
        have hops : (b.leaveHere .fallback).ops.toList =
            b.ops.toList ++ [.exit (b.leaveAt b.loc .fallback)] := Array.toList_push
        refine ⟨_, harms.carries_first hf hi hc ?_ ?_⟩
        · rw [hops]
          exact Op.allBelow_append.mpr ⟨harms.elseBelow,
            Op.allBelow_singleton.mpr (leaveAt_below hfit (MayLeave.fallback (m := m)))⟩
        · rw [hops]
          exact harms.elseCovers.append (covers_exit .fallback hfit.limit hfit.below)

end Ways

end Split

end Region

end HotPath
