/-
  HotPath.Proofs.Region.Spot

  What a region says about the machine. Given the slots of a run, every binding
  stands for a register (`Binding.cell`) and a region for the spot at which the
  machine is (`Region.spot`). This module says how reading a register, changing
  one, evaluating an operand and leaving look from that side.
-/
import HotPath.Proofs.Machine.Reach
import HotPath.Proofs.Trace.Bounds
import HotPath.Region.Grow

namespace HotPath

/-- The register that a binding stands for. -/
def Binding.cell (slots : Array Value) : Binding → Cell
  | .fixed k => ⟨k.value, false⟩
  | .slot s tainted => ⟨slots.getD s .nil, tainted⟩

/-- The frame that bindings stand for. -/
def Binding.frame (slots : Array Value) (bs : List Binding) : Frame := ⟨bs.map (cell slots)⟩

/-- The spot that a region stands for. -/
def Region.spot (r : Region) (slots : Array Value) (io : Console) : Spot :=
  ⟨r.loc, Binding.frame slots r.regs, io⟩

/-- Two arrays of slots hold the same values below a bound. -/
def AgreeBelow (n : Nat) (slots slots' : Array Value) : Prop :=
  ∀ s, s < n → slots.getD s .nil = slots'.getD s .nil

theorem AgreeBelow.trans {n : Nat} {a b c : Array Value} (hab : AgreeBelow n a b)
    (hbc : AgreeBelow n b c) : AgreeBelow n a c :=
  fun s hs => (hab s hs).trans (hbc s hs)

theorem AgreeBelow.mono {n k : Nat} (h : n ≤ k) {a b : Array Value} (hab : AgreeBelow k a b) :
    AgreeBelow n a b :=
  fun s hs => hab s (Nat.lt_of_lt_of_le hs h)

/-- Filling a slot leaves those below it alone. -/
theorem agreeBelow_set {n : Nat} {dst : Slot} (h : n ≤ dst) (slots : Array Value) (v : Value) :
    AgreeBelow n slots (slots.setIfInBounds dst v) := by
  intro s hs
  have hne : dst ≠ s := Nat.ne_of_gt (Nat.lt_of_lt_of_le hs h)
  simp only [Array.getD_eq_getD_getElem?, Array.getElem?_setIfInBounds, if_neg hne]

theorem getD_set_self {slots : Array Value} {dst : Slot} (h : dst < slots.size) (v : Value) :
    (slots.setIfInBounds dst v).getD dst .nil = v := by
  simp only [Array.getD_eq_getD_getElem?, Array.getElem?_setIfInBounds, if_pos h, if_true,
    Option.getD_some]

-- ============================================================================
-- One binding
-- ============================================================================

namespace Binding

variable {slots : Array Value} {b : Binding}

@[simp] theorem cell_tainted (slots : Array Value) (b : Binding) :
    (b.cell slots).tainted = b.isTainted := by
  cases b <;> rfl

theorem cell_of_const? {v : Value} (h : b.const? = some v) (slots : Array Value) :
    b.cell slots = ⟨v, false⟩ := by
  cases b with
  | fixed k =>
    cases h
    rfl
  | slot s t => cases h

theorem isTainted_of_const? {v : Value} (h : b.const? = some v) : b.isTainted = false := by
  rw [← cell_tainted #[], cell_of_const? h]

/-- An operand has the value of the register it reads. -/
theorem eval_operand (h : b.Below slots.size) :
    b.operand.eval slots = .ok (b.cell slots).value := by
  cases b with
  | fixed k => rfl
  | slot s t =>
    have hs : s < slots.size := h s rfl
    simp only [operand, Operand.eval, cell, Array.getD_eq_getD_getElem?,
      Array.getElem?_eq_getElem hs, inRange, Option.getD_some]

theorem evalAll_operand {bs : List Binding} (h : ∀ b ∈ bs, b.Below slots.size) :
    Operand.evalAll slots (bs.map operand) = .ok (bs.map (fun b => (b.cell slots).value)) := by
  induction bs with
  | nil => rfl
  | cons b bs ih =>
    have hb := eval_operand (h b List.mem_cons_self)
    have hbs := ih (fun c hc => h c (List.mem_cons_of_mem _ hc))
    simp only [List.map_cons, Operand.evalAll, hb, hbs]

/-- A register looks the same through slots that agree on what it mentions. -/
theorem cell_congr {slots' : Array Value} {n : Nat} (ha : AgreeBelow n slots slots')
    (hb : b.Below n) : b.cell slots = b.cell slots' := by
  cases b with
  | fixed k => rfl
  | slot s t => simp only [cell, ha s (hb s rfl)]

theorem frame_congr {slots' : Array Value} {n : Nat} {bs : List Binding}
    (ha : AgreeBelow n slots slots') (hb : ∀ b ∈ bs, b.Below n) :
    frame slots bs = frame slots' bs := by
  unfold frame
  rw [List.map_congr_left (fun b h => cell_congr ha (hb b h))]

-- ============================================================================
-- Frames
-- ============================================================================

@[simp] theorem size_frame (slots : Array Value) (bs : List Binding) :
    (frame slots bs).size = bs.length := List.length_map _

theorem frame_get {bs : List Binding} {reg : Reg} (h : bs[reg]? = some b)
    (slots : Array Value) : (frame slots bs).get reg = (b.cell slots).value := by
  simp only [frame, Frame.get, List.getElem?_map, h, Option.map_some]

theorem frame_isTainted {bs : List Binding} {reg : Reg} (h : bs[reg]? = some b)
    (slots : Array Value) : (frame slots bs).isTainted reg = b.isTainted := by
  simp only [frame, Frame.isTainted, List.getElem?_map, h, Option.map_some, cell_tainted]

theorem frame_set (slots : Array Value) (bs : List Binding) (reg : Reg) (b : Binding) :
    frame slots (bs.set reg b) =
      (frame slots bs).set reg (b.cell slots).value b.isTainted := by
  simp only [frame, Frame.set, List.map_set]
  rw [← cell_tainted slots b]

/-- Every register of a list is as its binding says. -/
theorem values_of_getElem? {bs cs : List Binding} {regs : List Reg}
    (h : regs.map (fun reg => bs[reg]?) = cs.map some) (slots : Array Value) :
    regs.map (frame slots bs).get = cs.map (fun b => (b.cell slots).value) ∧
      regs.any (frame slots bs).isTainted = cs.any isTainted := by
  induction regs generalizing cs with
  | nil =>
    cases cs with
    | nil => exact ⟨rfl, rfl⟩
    | cons c cs => cases h
  | cons reg regs ih =>
    cases cs with
    | nil => cases h
    | cons c cs =>
      obtain ⟨hc, hcs⟩ := List.cons.inj h
      obtain ⟨hv, ht⟩ := ih hcs
      constructor
      · rw [List.map_cons, List.map_cons, frame_get hc, hv]
      · rw [List.any_cons, List.any_cons, frame_isTainted hc, ht]

end Binding

-- ============================================================================
-- Reading registers of a region
-- ============================================================================

namespace Region

variable {r : Region}

theorem get_eq_ok {reg : Reg} {b : Binding} : r.get reg = .ok b ↔ r.regs[reg]? = some b := by
  unfold get
  cases r.regs[reg]? with
  | none => exact ⟨nofun, nofun⟩
  | some c =>
    constructor
    · intro h
      cases h
      rfl
    · intro h
      cases h
      rfl

theorem getAll_eq_ok {regs : List Reg} {bs : List Binding} (h : r.getAll regs = .ok bs) :
    regs.map (fun reg => r.regs[reg]?) = bs.map some := by
  induction regs generalizing bs with
  | nil =>
    cases h
    rfl
  | cons reg regs ih =>
    rw [getAll] at h
    cases hb : r.get reg with
    | error e =>
      rw [hb] at h
      cases h
    | ok b =>
      cases hbs : r.getAll regs with
      | error e =>
        rw [hb, hbs] at h
        cases h
      | ok cs =>
        rw [hb, hbs] at h
        cases h
        rw [List.map_cons, List.map_cons, ih hbs, get_eq_ok.mp hb]

theorem mem_of_getAll {regs : List Reg} {bs : List Binding} (h : r.getAll regs = .ok bs)
    {b : Binding} (hb : b ∈ bs) : b ∈ r.regs := by
  have hm : some b ∈ regs.map (fun reg => r.regs[reg]?) := by
    rw [getAll_eq_ok h]
    exact List.mem_map_of_mem hb
  obtain ⟨reg, -, hreg⟩ := List.mem_map.mp hm
  exact List.mem_of_getElem? hreg

theorem set_eq_ok {r' : Region} {reg : Reg} {b : Binding} (h : r.set reg b = .ok r') :
    reg < r.regs.length ∧ r' = { r with regs := r.regs.set reg b } := by
  unfold set at h
  split at h
  · next hlt =>
    cases h
    exact ⟨hlt, rfl⟩
  · cases h

/-- Fixed registers have the values that are known of them, and no taint. -/
theorem consts?_eq_some {bs : List Binding} {vs : List Value} (h : consts? bs = some vs)
    (slots : Array Value) :
    bs.map (fun b => (b.cell slots).value) = vs ∧ bs.any Binding.isTainted = false := by
  unfold consts? at h
  split at h
  · next hall =>
    cases h
    induction bs with
    | nil => exact ⟨rfl, rfl⟩
    | cons b bs ih =>
      rw [List.all_cons, Bool.and_eq_true] at hall
      obtain ⟨hv, ht⟩ := ih hall.2
      cases b with
      | fixed k =>
        constructor
        · rw [List.map_cons, hv]
          rfl
        · rw [List.any_cons, ht]
          rfl
      | slot s t => exact absurd hall.1 Bool.false_ne_true
  · cases h

end Region

-- ============================================================================
-- Leaving
-- ============================================================================

namespace Leave

variable {slots : Array Value}

/-- Filling a frame from a position on gives the registers that the bindings
stand for. -/
theorem fill_eq {bs : List Binding} {i : Nat} {f : Frame} (hlen : i + bs.length = f.size)
    (hsize : f.size ≤ 256) (hb : ∀ b ∈ bs, b.Below slots.size) :
    fill slots i f bs = .ok ⟨f.cells.take i ++ bs.map (Binding.cell slots)⟩ := by
  induction bs generalizing i f with
  | nil =>
    have htake : f.cells.take i = f.cells := List.take_of_length_le (by
      have : f.cells.length = f.size := rfl
      simp only [List.length_nil] at hlen
      omega)
    rw [fill, htake, List.map_nil, List.append_nil]
  | cons b bs ih =>
    have hlen' : i + (bs.length + 1) = f.size := hlen
    have hi : i < f.cells.length := by
      have : f.cells.length = f.size := rfl
      omega
    rw [fill, Binding.eval_operand (hb b List.mem_cons_self)]
    dsimp only
    rw [ih (by rw [Frame.size_set]; omega) (by rw [Frame.size_set]; exact hsize)
      (fun c hc => hb c (List.mem_cons_of_mem _ hc)), Reg.ofIndex_of_lt (by omega)]
    -- the registers before this one stay, and this one comes after them
    have htake : (f.cells.set i ⟨(b.cell slots).value, b.isTainted⟩).take (i + 1) =
        f.cells.take i ++ [b.cell slots] := by
      rw [List.take_add_one, List.take_set_of_le (Nat.le_refl i), List.getElem?_set_self hi,
        ← Binding.cell_tainted slots b]
      rfl
    simp only [Frame.set, htake, List.map_cons, List.append_assoc, List.cons_append,
      List.nil_append]

/-- Leaving rebuilds the frame that the bindings stand for. -/
theorem fill_blank {bs : List Binding} (hlen : bs.length ≤ Reg.limit)
    (hb : ∀ b ∈ bs, b.Below slots.size) :
    fill slots 0 (Frame.blank bs.length) bs = .ok (Binding.frame slots bs) := by
  have hsize : (Frame.blank bs.length).size = bs.length := by
    simp only [Frame.blank, Frame.size, List.length_replicate]
    omega
  have hlimit : Reg.limit = 64 := rfl
  rw [fill_eq (by omega) (by omega) hb]
  rfl

end Leave

end HotPath
