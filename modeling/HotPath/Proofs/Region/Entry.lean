/-
  HotPath.Proofs.Region.Entry

  Where regions start. A region knows some registers of the frame it was entered
  with, by value or by taint. It *admits* every frame of that size and taint, and
  takes it for one with the values that it has fixed. The mask of a frame is all
  there is to know about its taint (`Frame.isTainted_eq_of_mask`), and the slots
  at the entry of a trace hold an admitted frame (`Region.frame_entering`).
-/
import HotPath.Proofs.Region.Walk

namespace HotPath

-- ============================================================================
-- Masks
-- ============================================================================

namespace Frame

/-- Masks of equally many registers are equal only if all taint is. -/
theorem tainted_eq_of_maskOf {cs cs' : List Cell} (hlen : cs'.length = cs.length)
    (h : maskOf cs' = maskOf cs) : cs'.map Cell.tainted = cs.map Cell.tainted := by
  induction cs generalizing cs' with
  | nil =>
    rw [List.length_eq_zero_iff.mp hlen]
  | cons c cs ih =>
    cases cs' with
    | nil => cases hlen
    | cons c' cs' =>
      -- the first register is the lowest bit
      have hbits : c'.tainted.toNat + 2 * maskOf cs' = c.tainted.toNat + 2 * maskOf cs := h
      have hle := Bool.toNat_le c'.tainted
      have hle' := Bool.toNat_le c.tainted
      have hhead : c'.tainted = c.tainted := by
        have hnat : c'.tainted.toNat = c.tainted.toNat := by omega
        revert hnat
        cases c'.tainted <;> cases c.tainted <;> decide
      rw [List.map_cons, List.map_cons, hhead, ih (Nat.succ.inj hlen) (by omega)]

theorem isTainted_eq_of_mask {f f' : Frame} (hsize : f'.size = f.size) (hmask : f'.mask = f.mask)
    (r : Reg) : f'.isTainted r = f.isTainted r := by
  have h : (f'.cells.map Cell.tainted)[r]? = (f.cells.map Cell.tainted)[r]? := by
    rw [tainted_eq_of_maskOf hsize hmask]
  rw [List.getElem?_map, List.getElem?_map] at h
  unfold isTainted
  cases hc : f.cells[r]? with
  | none =>
    rw [hc] at h
    rw [Option.map_eq_none_iff.mp h]
  | some c =>
    rw [hc] at h
    obtain ⟨c', hc', ht⟩ := Option.map_eq_some_iff.mp h
    rw [hc']
    exact ht

/-- The mask follows from the taint of the registers. -/
theorem mask_eq_of_isTainted {f f' : Frame} (hsize : f'.size = f.size)
    (h : ∀ r, f'.isTainted r = f.isTainted r) : f'.mask = f.mask := by
  obtain ⟨cs⟩ := f
  obtain ⟨cs'⟩ := f'
  show maskOf cs' = maskOf cs
  replace hsize : cs'.length = cs.length := hsize
  induction cs generalizing cs' with
  | nil => rw [List.length_eq_zero_iff.mp hsize]
  | cons c cs ih =>
    cases cs' with
    | nil => cases hsize
    | cons c' cs' =>
      have hhead : c'.tainted = c.tainted := h 0
      have htail : maskOf cs' = maskOf cs :=
        ih cs' (fun r => h (r + 1)) (Nat.succ.inj hsize)
      rw [maskOf, maskOf, hhead, htail]

/-- A frame is the values and the taint of its registers. -/
theorem ext_get {f f' : Frame} (hsize : f'.size = f.size)
    (hget : ∀ i, i < f.size → f'.get i = f.get i)
    (htaint : ∀ i, i < f.size → f'.isTainted i = f.isTainted i) : f' = f := by
  obtain ⟨cs⟩ := f
  obtain ⟨cs'⟩ := f'
  congr 1
  refine List.ext_getElem hsize (fun i h₁ h₂ => ?_)
  have hv := hget i h₂
  have ht := htaint i h₂
  simp only [get, isTainted, List.getElem?_eq_getElem h₁,
    List.getElem?_eq_getElem h₂] at hv ht
  cases hc : cs[i] with
  | mk v t =>
    cases hc' : cs'[i] with
    | mk v' t' =>
      rw [hc, hc'] at hv ht
      simp only at hv ht
      rw [hv, ht]

end Frame

-- ============================================================================
-- Entry registers
-- ============================================================================

namespace Region

/-- A frame that may be entered with, and what a region takes it for: a register
that the region has fixed counts as having the fixed value. -/
structure Admits (r : Region) (f f' : Frame) : Prop where
  size_eq : f.size = r.regs.length
  size_eq' : f'.size = f.size
  taint_eq : ∀ i b, r.regs[i]? = some b → f'.isTainted i = b.isTainted
  fixed_eq : ∀ i k, r.regs[i]? = some (.fixed k) → f'.get i = k.value
  slot_eq : ∀ i s t, r.regs[i]? = some (.slot s t) → f'.get i = f.get i

theorem entryRegs_length (origin : Reg → Option Origin) (i : Nat) (cs : List Cell) :
    (entryRegs origin i cs).length = cs.length := by
  induction cs generalizing i with
  | nil => rfl
  | cons c cs ih => simp only [entryRegs, List.length_cons, ih]

theorem getElem?_entryRegs (origin : Reg → Option Origin) (i j : Nat) (cs : List Cell) :
    (entryRegs origin i cs)[j]? = (cs[j]?).map (entryBinding (origin (i + j)) (i + j)) := by
  induction cs generalizing i j with
  | nil => rfl
  | cons c cs ih =>
    cases j with
    | zero => rfl
    | succ j =>
      rw [entryRegs, List.getElem?_cons_succ, List.getElem?_cons_succ, ih, Nat.add_right_comm]
      rfl

@[simp] theorem entryBinding_isTainted (origin : Option Origin) (s : Slot) (c : Cell) :
    (entryBinding origin s c).isTainted = c.tainted := by
  unfold entryBinding
  cases ht : c.tainted with
  | true => rfl
  | false =>
    simp only [Bool.false_eq_true, if_false]
    cases origin.bind (fun o => o.fix? c.value) <;> rfl

/-- At the entry, a register that is not fixed lives in its own slot. -/
theorem entryBinding_cases (origin : Option Origin) (s : Slot) (c : Cell) :
    (∃ k, entryBinding origin s c = .fixed k) ∨ entryBinding origin s c = .slot s c.tainted := by
  unfold entryBinding
  cases ht : c.tainted with
  | true => exact Or.inr rfl
  | false =>
    simp only [Bool.false_eq_true, if_false]
    cases origin.bind (fun o => o.fix? c.value) with
    | some k => exact Or.inl ⟨k, rfl⟩
    | none => exact Or.inr rfl

/-- A register at the entry of a region. -/
theorem getElem?_entering {loc : Location} {f : Frame} {origin : Reg → Option Origin} {i : Reg}
    {b : Binding} (h : (entering loc f origin).regs[i]? = some b) :
    ∃ c, f.cells[i]? = some c ∧ b = entryBinding (origin i) i c := by
  have h : (entryRegs origin 0 f.cells)[i]? = some b := h
  rw [getElem?_entryRegs, Nat.zero_add] at h
  obtain ⟨c, hc, hb⟩ := Option.map_eq_some_iff.mp h
  exact ⟨c, hc, hb.symm⟩

theorem length_entering (loc : Location) (f : Frame) (origin : Reg → Option Origin) :
    (entering loc f origin).regs.length = f.size := entryRegs_length origin 0 f.cells

theorem fits_entering {p : Program} {fn : Function} {loc : Location} {f : Frame}
    {origin : Reg → Option Origin} (hf : p.functions[loc.func]? = some fn)
    (hs : f.size = fn.registers) (hc : loc.pc < fn.code.size) :
    (entering loc f origin).Fits p fn where
  function := hf
  registers := (length_entering loc f origin).trans hs
  cursor := hc
  below := by
    intro b hb s hs
    obtain ⟨i, hi⟩ := List.getElem?_of_mem hb
    obtain ⟨c, hc, rfl⟩ := getElem?_entering hi
    have hlt : i < f.size := (List.getElem?_eq_some_iff.mp hc).1
    rcases entryBinding_cases (origin i) i c with ⟨k, hk⟩ | hk
    · rw [hk] at hs
      cases hs
    · rw [hk] at hs
      cases hs
      exact hlt

/-- The slots at the entry hold an admitted frame as the region takes it. -/
theorem frame_entering {loc : Location} {f₀ f f' : Frame} {origin : Reg → Option Origin}
    (ha : (entering loc f₀ origin).Admits f f') {slots : Array Value}
    (hslots : ∀ i, i < f.size → slots.getD i .nil = f.get i) :
    Binding.frame slots (entering loc f₀ origin).regs = f' := by
  have hsize : (Binding.frame slots (entering loc f₀ origin).regs).size = f'.size := by
    rw [Binding.size_frame, ha.size_eq', ha.size_eq]
  have hreg : ∀ i, i < f'.size → ∃ b, (entering loc f₀ origin).regs[i]? = some b := by
    intro i hi
    rw [ha.size_eq', ha.size_eq] at hi
    exact ⟨_, List.getElem?_eq_getElem hi⟩
  refine Frame.ext_get hsize (fun i hi => ?_) (fun i hi => ?_)
  · obtain ⟨b, hb⟩ := hreg i hi
    rw [Binding.frame_get hb]
    obtain ⟨c, -, rfl⟩ := getElem?_entering hb
    rcases entryBinding_cases (origin i) i c with ⟨k, hk⟩ | hk
    · rw [hk] at hb ⊢
      rw [ha.fixed_eq i k hb]
      rfl
    · rw [hk] at hb ⊢
      rw [ha.slot_eq i _ _ hb]
      exact hslots i (ha.size_eq' ▸ hi)
  · obtain ⟨b, hb⟩ := hreg i hi
    rw [Binding.frame_isTainted hb, ha.taint_eq i b hb]

end Region

/-- The slots at the entry of a trace begin with the frame. -/
theorem Trace.getD_entrySlots (t : Trace) {f : Frame} {i : Nat} (hi : i < f.size) :
    (t.entrySlots f).getD i .nil = f.get i := by
  have hlt : i < f.cells.length := hi
  unfold entrySlots Frame.values Frame.get
  rw [Array.getD_eq_getD_getElem?, List.getElem?_toArray,
    List.getElem?_append_left (by rw [List.length_map]; exact hlt), List.getElem?_map,
    List.getElem?_eq_getElem hlt]
  rfl

end HotPath
