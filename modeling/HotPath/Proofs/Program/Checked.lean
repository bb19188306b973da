/-
  HotPath.Proofs.Program.Checked

  What the checks of a program say about its instructions: the registers of an
  instruction are in the frame, control stays in the code, a join is in the
  code, and there are never more registers than the limit.
-/
import HotPath.Program.Basic

namespace HotPath

namespace Program

variable {p : Program} {func : FuncId} {fn : Function} {pc : Nat} {i : Instr}

-- ============================================================================
-- From the whole list to one instruction
-- ============================================================================

/-- Every function passes its own checks. -/
theorem function_fault?_eq_none (hf : p.functions[func]? = some fn) :
    fn.fault? p.functions func = none := by
  have hall := p.faultless
  unfold Function.listFault? at hall
  split at hall
  · cases hall
  · split at hall
    · cases hall
    · have hmem : (fn, func) ∈ p.functions.toList.zipIdx := by
        rw [List.mk_mem_zipIdx_iff_getElem?, Array.getElem?_toList]
        exact hf
      exact List.findSome?_eq_none_iff.mp hall _ hmem

theorem shapeFault?_eq_none (hf : p.functions[func]? = some fn) : fn.shapeFault? = none := by
  have h := function_fault?_eq_none hf
  unfold Function.fault? at h
  exact (Option.or_eq_none_iff.mp h).1

/-- Every instruction passes its own checks. -/
theorem instrFault?_eq_none (hf : p.functions[func]? = some fn) (hi : fn.code[pc]? = some i) :
    fn.instrFault? p.functions ⟨func, pc⟩ i = none := by
  have h := function_fault?_eq_none hf
  unfold Function.fault? at h
  have hmem : (i, pc) ∈ fn.code.toList.zipIdx := by
    rw [List.mk_mem_zipIdx_iff_getElem?, Array.getElem?_toList]
    exact hi
  exact List.findSome?_eq_none_iff.mp (Option.or_eq_none_iff.mp h).2 _ hmem

/-- The instruction at an address is in the code of a function. -/
theorem instr?_eq_some {loc : Location} :
    p.instr? loc = some i ↔
      ∃ fn, p.functions[loc.func]? = some fn ∧ fn.code[loc.pc]? = some i := by
  unfold instr?
  exact Option.bind_eq_some_iff

theorem instr?_of_function (hf : p.functions[func]? = some fn) :
    p.instr? ⟨func, pc⟩ = fn.code[pc]? := by
  unfold instr?
  rw [hf]
  rfl

-- ============================================================================
-- The single checks
-- ============================================================================

theorem registers_le_limit (hf : p.functions[func]? = some fn) : fn.registers ≤ Reg.limit := by
  have h := shapeFault?_eq_none hf
  unfold Function.shapeFault? at h
  by_cases h1 : Word.max < fn.code.size
  · rw [if_pos h1] at h
    cases h
  · rw [if_neg h1] at h
    by_cases h2 : Reg.limit < fn.registers
    · rw [if_pos h2] at h
      cases h
    · omega

theorem params_le_registers (hf : p.functions[func]? = some fn) : fn.params ≤ fn.registers := by
  have h := shapeFault?_eq_none hf
  unfold Function.shapeFault? at h
  split at h
  · cases h
  · split at h
    · cases h
    · split at h
      · cases h
      · omega

theorem code_size_le (hf : p.functions[func]? = some fn) : fn.code.size ≤ Word.max := by
  have h := shapeFault?_eq_none hf
  unfold Function.shapeFault? at h
  by_cases h1 : Word.max < fn.code.size
  · rw [if_pos h1] at h
    cases h
  · omega

/-- The body of a function is not empty. -/
theorem code_size_pos (hf : p.functions[func]? = some fn) : 0 < fn.code.size := by
  have h := shapeFault?_eq_none hf
  unfold Function.shapeFault? at h
  split at h
  · cases h
  · split at h
    · cases h
    · split at h
      · cases h
      · cases hb : fn.code.back? with
        | none =>
          rw [hb] at h
          cases h
        | some last =>
          rw [Array.back?_eq_getElem?] at hb
          have := (Array.getElem?_eq_some_iff.mp hb).1
          omega

/-- A register that an instruction reads or writes is in the frame. -/
theorem register_lt (hf : p.functions[func]? = some fn) (hi : fn.code[pc]? = some i) {r : Reg}
    (hr : r ∈ i.reads ++ i.writes.toList) : r < fn.registers := by
  have h := instrFault?_eq_none hf hi
  unfold Function.instrFault? at h
  have hreg := (Option.or_eq_none_iff.mp (Option.or_eq_none_iff.mp h).1).1
  unfold Function.registerFault? at hreg
  have hr := List.findSome?_eq_none_iff.mp hreg r hr
  by_cases hle : fn.registers ≤ r
  · rw [if_pos hle] at hr
    cases hr
  · exact Nat.lt_of_not_le hle

/-- Control stays in the code. -/
theorem successor_lt (hf : p.functions[func]? = some fn) (hi : fn.code[pc]? = some i) {t : Nat}
    (ht : t ∈ i.successors pc) : t < fn.code.size := by
  have h := instrFault?_eq_none hf hi
  unfold Function.instrFault? at h
  have htar := (Option.or_eq_none_iff.mp (Option.or_eq_none_iff.mp h).1).2
  unfold Function.targetFault? at htar
  have ht := List.findSome?_eq_none_iff.mp htar t ht
  by_cases hle : fn.code.size ≤ t
  · rw [if_pos hle] at ht
    cases ht
  · omega

/-- The join of a split is in the code. -/
theorem join_lt {cond : Reg} {elsePc join : Nat} (hf : p.functions[func]? = some fn)
    (hi : fn.code[pc]? = some (.branch cond elsePc (some join))) : join < fn.code.size := by
  have h := instrFault?_eq_none hf hi
  unfold Function.instrFault? at h
  have hop := (Option.or_eq_none_iff.mp h).2
  simp only [Function.operandFault?] at hop
  by_cases hle : fn.code.size ≤ join
  · rw [if_pos hle] at hop
    cases hop
  · omega

/-- A call names a function of the program. -/
theorem callee_lt {dst : Reg} {callee : FuncId} {args : List Reg}
    (hf : p.functions[func]? = some fn) (hi : fn.code[pc]? = some (.call dst callee args)) :
    callee < p.functions.size := by
  have h := instrFault?_eq_none hf hi
  unfold Function.instrFault? at h
  have hop := (Option.or_eq_none_iff.mp h).2
  simp only [Function.operandFault?] at hop
  cases hc : p.functions[callee]? with
  | none =>
    rw [hc] at hop
    cases hop
  | some fn' => exact (Array.getElem?_eq_some_iff.mp hc).1

/-- A call has as many arguments as its callee has parameters. -/
theorem exists_callee {dst : Reg} {callee : FuncId} {args : List Reg}
    (hf : p.functions[func]? = some fn) (hi : fn.code[pc]? = some (.call dst callee args)) :
    ∃ fn', p.functions[callee]? = some fn' ∧ args.length = fn'.params := by
  have h := instrFault?_eq_none hf hi
  unfold Function.instrFault? at h
  have hop := (Option.or_eq_none_iff.mp h).2
  simp only [Function.operandFault?] at hop
  cases hc : p.functions[callee]? with
  | none =>
    rw [hc] at hop
    cases hop
  | some fn' =>
    rw [hc] at hop
    by_cases hlen : fn'.params = args.length
    · exact ⟨fn', rfl, hlen.symm⟩
    · simp [hlen] at hop

/-- There are no more functions than 32-bit words. -/
theorem functions_size_le (p : Program) : p.functions.size ≤ Word.max32 + 1 := by
  have hall := p.faultless
  unfold Function.listFault? at hall
  split at hall
  · cases hall
  · split at hall
    · cases hall
    · omega

/-- An address in the code has one after it, as a word. -/
theorem next?_cursor (hf : p.functions[func]? = some fn) (hpc : pc < fn.code.size) :
    Word.next? pc = some (pc + 1) := by
  have := code_size_le hf
  exact Word.next?_of_lt (by omega)

theorem lt_of_getElem? (hi : fn.code[pc]? = some i) : pc < fn.code.size :=
  (Array.getElem?_eq_some_iff.mp hi).1

-- ============================================================================
-- Dispatch points
-- ============================================================================

/-- Execution changes hands at merge points only. -/
theorem isDispatchPoint_eq_false {headersOnly : Bool} {loc : Location}
    (hi : p.instr? loc = some i) (hm : i.isMergePoint = false) :
    p.isDispatchPoint headersOnly loc = false := by
  unfold isDispatchPoint
  rw [hi]
  simp only [hm, Bool.false_and]

theorem exists_mergePoint_of_isDispatchPoint {headersOnly : Bool} {loc : Location}
    (h : p.isDispatchPoint headersOnly loc = true) :
    ∃ greens, p.instr? loc = some (.mergePoint greens) := by
  unfold isDispatchPoint at h
  cases hi : p.instr? loc with
  | none =>
    rw [hi] at h
    cases h
  | some i =>
    rw [hi] at h
    simp only [Bool.and_eq_true] at h
    cases i with
    | mergePoint greens => exact ⟨greens, rfl⟩
    | _ => exact absurd h.1 Bool.false_ne_true

theorem isSome_instr?_of_isDispatchPoint {headersOnly : Bool} {loc : Location}
    (h : p.isDispatchPoint headersOnly loc = true) : (p.instr? loc).isSome = true := by
  obtain ⟨greens, hg⟩ := exists_mergePoint_of_isDispatchPoint h
  rw [hg]
  rfl

/-- The entry of a program is one of its functions. -/
theorem exists_entry (p : Program) : ∃ fn, p.functions[p.entry]? = some fn := by
  have hall := p.faultless
  unfold Function.listFault? at hall
  split at hall
  · cases hall
  · next h => exact ⟨p.functions[p.entry], Array.getElem?_eq_getElem (by omega)⟩

end Program

end HotPath
