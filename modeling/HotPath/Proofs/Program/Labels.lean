/-
  HotPath.Proofs.Program.Labels

  Building a function resolves its labels. What a list of steps means is said without
  the assembler: the instructions that the steps write, with every label at a place
  (`Assembler.Step.instr?`), where a label was last bound (`Assembler.BoundAt`), and which
  registers and parameters there are (`Assembler.Covers`).

  Taking steps leaves the assembler with instructions that have placeholders, and a fixup
  for each of them (`Assembler.Takes`). Fixups come in the order of the instructions that
  they belong to, so that resolving them goes through the steps once more
  (`Assembler.resolveAll_steps`).
-/
import HotPath.Program.Assembler

namespace HotPath

namespace Assembler

-- ============================================================================
-- What steps mean
-- ============================================================================

namespace Step

/-- The instruction that a step writes, if it does, with labels at their places. -/
def instr? (place : Nat → Nat) : Step → Option Instr
  | .emit i => some i
  | .jump label => some (.jump (place label))
  | .branch cond elseArm join => some (.branch cond (place elseArm) (join.map place))
  | _ => none

/-- Whether a step writes an instruction. -/
def writes : Step → Bool
  | .emit _ | .jump _ | .branch .. => true
  | _ => false

/-- Whether a step makes a label. -/
def makes : Step → Bool
  | .newLabel => true
  | _ => false

/-- The labels that a step refers to. -/
def refers : Step → List Nat
  | .jump label => [label]
  | .branch _ elseArm join => elseArm :: join.toList
  | _ => []

/-- The label that a step binds. -/
def binds? : Step → Option Nat
  | .bind label => some label
  | _ => none

/-- All labels of a step. -/
def labels (s : Step) : List Nat := s.binds?.toList ++ s.refers

/-- The registers of the instruction that a step writes. -/
def uses : Step → List Reg
  | .emit i => i.reads ++ i.writes.toList
  | .branch cond _ _ => [cond]
  | _ => []

/-- The number of parameters that a step sets. -/
def params? : Step → Option Nat
  | .params n => some n
  | _ => none

/-- The number of registers that a step asks for. -/
def reserves? : Step → Option Nat
  | .registers n => some n
  | _ => none

end Step

/-- The instructions that steps write, with labels at their places. -/
def written (place : Nat → Nat) (steps : List Step) : List Instr :=
  steps.filterMap (Step.instr? place)

/-- Every label that is bound or referred to was made before. -/
def Scoped : (made : Nat) → List Step → Prop
  | _, [] => True
  | made, s :: steps => (∀ label ∈ s.labels, label < made) ∧ Scoped (made + s.makes.toNat) steps

instance decidableScoped : (made : Nat) → (steps : List Step) → Decidable (Scoped made steps)
  | _, [] => .isTrue trivial
  | made, s :: steps =>
    have := decidableScoped (made + s.makes.toNat) steps
    inferInstanceAs (Decidable ((∀ label ∈ s.labels, label < made) ∧ _))

/-- The last step that binds a label comes after `pc` instructions. -/
def BoundAt (steps : List Step) (label pc : Nat) : Prop :=
  ∃ before after, steps = before ++ .bind label :: after ∧ .bind label ∉ after ∧
    before.countP Step.writes = pc

/-- The number of registers that was asked for last. -/
def lastReserved (steps : List Step) : Option Nat := (steps.filterMap Step.reserves?).getLast?

/-- The number of parameters that was set last. -/
def lastParams (steps : List Step) : Nat := (steps.filterMap Step.params?).getLast?.getD 0

/-- A number of registers has room for every register that is used and for all parameters
that were ever set. -/
def Covers (steps : List Step) (n : Nat) : Prop :=
  ∀ s ∈ steps, (∀ r ∈ s.uses, r < n) ∧ ∀ p, s.params? = some p → p ≤ n

/-- The registers that a step needs. -/
def Step.needs : Step → Nat
  | .params n => n
  | s => s.uses.foldr (fun r n => max (r + 1) n) 0

/-- The least number of registers that covers all steps. -/
def needed (steps : List Step) : Nat := steps.foldr (fun s n => max s.needs n) 0

/-- The number of registers of the function: what was asked for last, or what is needed,
but at least one. -/
def registerCount (steps : List Step) : Nat := (lastReserved steps).getD (max (needed steps) 1)

section Meaning

variable {steps : List Step} {s : Step} {place : Nat → Nat} {i : Instr} {n : Nat}

theorem isSome_instr? (place : Nat → Nat) (s : Step) : (s.instr? place).isSome = s.writes := by
  cases s <;> rfl

theorem countP_singleton_eq_toNat (p : Step → Bool) (s : Step) : [s].countP p = (p s).toNat := by
  rw [List.countP_singleton]
  cases p s <;> rfl

theorem length_written (place : Nat → Nat) (steps : List Step) :
    (written place steps).length = steps.countP Step.writes := by
  unfold written
  rw [List.length_filterMap_eq_countP]
  exact List.countP_congr (fun s _ => by rw [isSome_instr?])

/-- Labels have nothing to do with registers. -/
theorem uses_of_instr? (h : s.instr? place = some i) :
    i.reads ++ i.writes.toList = s.uses := by
  cases s with
  | emit | jump | branch =>
    cases h
    rfl
  | params | registers | newLabel | bind => cases h

theorem foldr_max_le {rs : List Reg} :
    rs.foldr (fun r n => max (r + 1) n) 0 ≤ n ↔ ∀ r ∈ rs, r < n := by
  induction rs with
  | nil => simp
  | cons r rs ih =>
    rw [List.foldr_cons, Nat.max_le, ih, List.forall_mem_cons]
    exact Iff.rfl

theorem needs_le_iff : s.needs ≤ n ↔ (∀ r ∈ s.uses, r < n) ∧ ∀ p, s.params? = some p → p ≤ n := by
  cases s with
  | params p => simp [Step.needs, Step.uses, Step.params?]
  | registers | newLabel | bind | emit | jump | branch =>
    rw [Step.needs, foldr_max_le]
    · simp [Step.params?]
    · simp

theorem needed_le_iff : needed steps ≤ n ↔ Covers steps n := by
  induction steps with
  | nil => simp [needed, Covers]
  | cons s steps ih =>
    show max s.needs (needed steps) ≤ n ↔ _
    rw [Nat.max_le, ih, needs_le_iff]
    unfold Covers
    rw [List.forall_mem_cons]

end Meaning

-- ============================================================================
-- Where labels are bound
-- ============================================================================

/-- The place where steps bind a label last, if they do; `pc` instructions come before the
steps. -/
def bound (pc : Nat) : List Step → Nat → Option Nat
  | [], _ => none
  | s :: steps, label =>
    (bound (pc + s.writes.toNat) steps label).or (if s.binds? = some label then some pc else none)

section Bound

variable {steps : List Step} {s : Step} {label pc q : Nat}

theorem binds?_eq_some : s.binds? = some label ↔ s = .bind label := by
  cases s <;> simp [Step.binds?]

theorem bound_eq_none : bound pc steps label = none ↔ .bind label ∉ steps := by
  induction steps generalizing pc with
  | nil => simp [bound]
  | cons s steps ih =>
    rw [bound, Option.or_eq_none_iff, ih, List.mem_cons, not_or, ite_eq_right_iff, binds?_eq_some]
    constructor
    · rintro ⟨hrest, hs⟩
      exact ⟨fun h => Option.some_ne_none _ (hs h.symm), hrest⟩
    · rintro ⟨hs, hrest⟩
      exact ⟨hrest, fun h => absurd h.symm hs⟩

/-- The place of a label is that of its last bind. -/
theorem boundAt_of_bound (h : bound pc steps label = some q) :
    ∃ k, q = pc + k ∧ BoundAt steps label k := by
  induction steps generalizing pc with
  | nil => cases h
  | cons s steps ih =>
    rw [bound, Option.or_eq_some_iff] at h
    rcases h with hlater | ⟨hnone, hhere⟩
    · obtain ⟨k, rfl, before, after, rfl, hlast, rfl⟩ := ih hlater
      refine ⟨s.writes.toNat + before.countP Step.writes, Nat.add_assoc _ _ _, s :: before, after,
        rfl, hlast, ?_⟩
      rw [List.countP_cons, Nat.add_comm]
      cases s.writes <;> rfl
    · obtain ⟨hs, hq⟩ := Option.ite_none_right_eq_some.mp hhere
      cases hq
      rw [binds?_eq_some] at hs
      exact ⟨0, rfl, [], steps, by rw [hs]; rfl, bound_eq_none.mp hnone, rfl⟩

theorem bound_append (pc : Nat) (xs ys : List Step) (label : Nat) :
    bound pc (xs ++ ys) label =
      (bound (pc + xs.countP Step.writes) ys label).or (bound pc xs label) := by
  induction xs generalizing pc with
  | nil => simp [bound]
  | cons s xs ih =>
    rw [List.cons_append, bound, bound, ih, List.countP_cons, Option.or_assoc]
    congr 2
    cases s.writes <;> simp [Nat.add_assoc, Nat.add_comm 1]

end Bound

-- ============================================================================
-- Taking steps
-- ============================================================================

/-- The operands of a step's instruction that wait for labels. -/
def Step.fixups (pc : Nat) : Step → List Fixup
  | .jump label => [⟨pc, label, .target⟩]
  | .branch _ elseArm join =>
    ⟨pc, elseArm, .elseArm⟩ :: join.toList.map (fun label => ⟨pc, label, .join⟩)
  | _ => []

/-- The operands of all instructions that wait for labels, in order. -/
def fixupsOf (pc : Nat) : List Step → List Fixup
  | [] => []
  | s :: steps => s.fixups pc ++ fixupsOf (pc + s.writes.toNat) steps

theorem fixupsOf_append (pc : Nat) (xs ys : List Step) :
    fixupsOf pc (xs ++ ys) = fixupsOf pc xs ++ fixupsOf (pc + xs.countP Step.writes) ys := by
  induction xs generalizing pc with
  | nil => rfl
  | cons s xs ih =>
    rw [List.cons_append, fixupsOf, fixupsOf, ih, List.countP_cons, List.append_assoc]
    congr 3
    cases s.writes <;> simp [Nat.add_assoc, Nat.add_comm 1]

/-- Steps turn an assembler into another. Instructions that refer to labels are written
with placeholders. -/
structure Takes (a : Assembler) (steps : List Step) (b : Assembler) : Prop where
  name_eq : b.name = a.name
  params_eq : b.params = (steps.filterMap Step.params?).getLast?.getD a.params
  reserved_eq : b.reserved = (lastReserved steps).or a.reserved
  inferred_eq : b.inferred = max a.inferred (needed steps)
  code_eq : b.code.toList = a.code.toList ++ written (fun _ => placeholder) steps
  fixups_eq : b.fixups.toList = a.fixups.toList ++ fixupsOf a.here steps
  size_eq : b.labels.size = a.labels.size + steps.countP Step.makes
  label_eq : ∀ label, label < b.labels.size →
    b.labels[label]? = some ((bound a.here steps label).or (a.labels[label]?.getD none))
  known : ∀ s ∈ steps, ∀ label ∈ s.labels, label < b.labels.size

section Takes

variable {a b c : Assembler} {steps xs ys : List Step} {s : Step}

theorem here_eq_length (a : Assembler) : a.here = a.code.toList.length := rfl

theorem Takes.here_eq (h : Takes a steps b) : b.here = a.here + steps.countP Step.writes := by
  rw [here_eq_length, h.code_eq, List.length_append, length_written, ← here_eq_length]

theorem Takes.size_le (h : Takes a steps b) : a.labels.size ≤ b.labels.size :=
  h.size_eq ▸ Nat.le_add_right _ _

theorem Takes.refl (a : Assembler) : Takes a [] a where
  name_eq := rfl
  params_eq := rfl
  reserved_eq := rfl
  inferred_eq := (Nat.max_zero _).symm
  code_eq := (List.append_nil _).symm
  fixups_eq := (List.append_nil _).symm
  size_eq := rfl
  label_eq := by
    intro label hlt
    rw [Array.getElem?_eq_getElem hlt]
    rfl
  known := fun _ h => by cases h

theorem needed_append (xs ys : List Step) : needed (xs ++ ys) = max (needed xs) (needed ys) := by
  induction xs with
  | nil => exact (Nat.zero_max _).symm
  | cons s xs ih =>
    show max s.needs (needed (xs ++ ys)) = max (max s.needs (needed xs)) (needed ys)
    rw [ih, Nat.max_assoc]

theorem Takes.append (h : Takes a xs b) (h' : Takes b ys c) : Takes a (xs ++ ys) c where
  name_eq := h'.name_eq.trans h.name_eq
  params_eq := by
    rw [h'.params_eq, h.params_eq, List.filterMap_append, List.getLast?_append]
    cases (ys.filterMap Step.params?).getLast? <;> rfl
  reserved_eq := by
    rw [h'.reserved_eq, h.reserved_eq, lastReserved, lastReserved, lastReserved,
      List.filterMap_append, List.getLast?_append, Option.or_assoc]
  inferred_eq := by rw [h'.inferred_eq, h.inferred_eq, needed_append, Nat.max_assoc]
  code_eq := by
    rw [h'.code_eq, h.code_eq, List.append_assoc]
    exact congrArg _ List.filterMap_append.symm
  fixups_eq := by
    rw [h'.fixups_eq, h.fixups_eq, List.append_assoc, fixupsOf_append, h.here_eq]
  size_eq := by rw [h'.size_eq, h.size_eq, List.countP_append, Nat.add_assoc]
  label_eq := by
    intro label hlt
    rw [h'.label_eq label hlt, bound_append, h.here_eq, Option.or_assoc]
    by_cases hb : label < b.labels.size
    · rw [h.label_eq label hb]
      rfl
    · -- a label that did not exist was not bound
      have hunbound : bound a.here xs label = none := by
        refine bound_eq_none.mpr (fun hmem => hb (h.known _ hmem label ?_))
        exact List.mem_singleton.mpr rfl
      have hnone : a.labels[label]? = none :=
        Array.getElem?_eq_none (Nat.le_trans h.size_le (Nat.le_of_not_lt hb))
      rw [hunbound, hnone, Array.getElem?_eq_none (Nat.le_of_not_lt hb)]
      rfl
  known := by
    intro s hs label hl
    rcases List.mem_append.mp hs with hs | hs
    · exact Nat.lt_of_lt_of_le (h.known s hs label hl) h'.size_le
    · exact h'.known s hs label hl

theorem exists_foldl_touch (rs : List Reg) (a : Assembler) :
    ∃ highest, rs.foldl touch a = { a with highest } := by
  induction rs generalizing a with
  | nil => exact ⟨a.highest, rfl⟩
  | cons r rs ih =>
    obtain ⟨highest, h⟩ := ih (a.touch r)
    exact ⟨highest, h⟩

theorem inferred_touch (a : Assembler) (r : Reg) :
    (a.touch r).inferred = max a.inferred (r + 1) := by
  unfold touch inferred
  cases a.highest with
  | none => exact (Nat.zero_max _).symm
  | some h => exact (Nat.succ_max_succ h r).symm

theorem inferred_foldl_touch (rs : List Reg) (a : Assembler) :
    (rs.foldl touch a).inferred = max a.inferred (rs.foldr (fun r n => max (r + 1) n) 0) := by
  induction rs generalizing a with
  | nil => exact (Nat.max_zero _).symm
  | cons r rs ih => rw [List.foldl_cons, ih, inferred_touch, List.foldr_cons, Nat.max_assoc]

/-- Writing an instruction notes its registers and changes nothing else but the code. -/
theorem exists_emit (a : Assembler) (i : Instr) :
    ∃ highest, a.emit i = { a with highest, code := a.code.push i } := by
  obtain ⟨highest, htouch⟩ := exists_foldl_touch (i.reads ++ i.writes.toList) a
  refine ⟨highest, ?_⟩
  unfold emit
  rw [htouch]

/-- What a single step has to do. -/
theorem takes_singleton (hname : b.name = a.name) (hparams : b.params = s.params?.getD a.params)
    (hreserved : b.reserved = s.reserves?.or a.reserved)
    (hinferred : b.inferred = max a.inferred s.needs)
    (hcode : b.code.toList = a.code.toList ++ (s.instr? (fun _ => placeholder)).toList)
    (hfixups : b.fixups.toList = a.fixups.toList ++ s.fixups a.here)
    (hsize : b.labels.size = a.labels.size + s.makes.toNat)
    (hlabel : ∀ label, label < b.labels.size → b.labels[label]? =
      some ((if s.binds? = some label then some a.here else none).or (a.labels[label]?.getD none)))
    (hknown : ∀ label ∈ s.labels, label < b.labels.size) : Takes a [s] b where
  name_eq := hname
  params_eq := by
    rw [hparams, List.filterMap_cons]
    cases s.params? <;> rfl
  reserved_eq := by
    rw [hreserved, lastReserved, List.filterMap_cons]
    cases s.reserves? <;> rfl
  inferred_eq := hinferred.trans (congrArg _ (Nat.max_zero _).symm)
  code_eq := by
    rw [hcode, written, List.filterMap_cons]
    cases s.instr? (fun _ => placeholder) <;> rfl
  fixups_eq := by rw [hfixups, fixupsOf, fixupsOf, List.append_nil]
  size_eq := by rw [hsize, countP_singleton_eq_toNat]
  label_eq := hlabel
  known := by
    intro t ht
    rw [List.mem_singleton.mp ht]
    exact hknown

/-- Labels that a step leaves alone. -/
theorem label_kept (a : Assembler) {label : Nat} (hs : s.binds? ≠ some label)
    (hlt : label < a.labels.size) :
    a.labels[label]? = some ((if s.binds? = some label then some a.here else none).or
      (a.labels[label]?.getD none)) := by
  rw [if_neg hs, Array.getElem?_eq_getElem hlt]
  rfl

/-- Writing an instruction, with its operands that wait for labels. -/
theorem takes_emit {i : Instr} {waiting : Array Fixup}
    (hi : s.instr? (fun _ => placeholder) = some i)
    (hwaiting : waiting.toList = a.fixups.toList ++ s.fixups a.here)
    (hknown : ∀ label ∈ s.labels, label < a.labels.size) :
    Takes a [s] (emit { a with fixups := waiting } i) := by
  have hplain : s.params? = none ∧ s.reserves? = none ∧ s.binds? = none ∧ s.makes = false ∧
      s.needs = s.uses.foldr (fun r n => max (r + 1) n) 0 := by
    cases s with
    | emit | jump | branch => exact ⟨rfl, rfl, rfl, rfl, rfl⟩
    | params | registers | newLabel | bind => cases hi
  obtain ⟨hparams, hreserves, hbinds, hmakes, hneeds⟩ := hplain
  have hinferred : (emit { a with fixups := waiting } i).inferred = max a.inferred s.needs := by
    rw [hneeds, ← uses_of_instr? hi]
    exact inferred_foldl_touch (i.reads ++ i.writes.toList) { a with fixups := waiting }
  obtain ⟨highest, hemit⟩ := exists_emit { a with fixups := waiting } i
  rw [hemit] at hinferred ⊢
  have hnot : ∀ label, s.binds? ≠ some label := by simp [hbinds]
  refine takes_singleton rfl ?_ ?_ hinferred ?_ hwaiting ?_
    (fun label hlt => label_kept a (hnot label) hlt) hknown
  · rw [hparams]
    rfl
  · rw [hreserves]
    rfl
  · rw [hi]
    exact Array.toList_push
  · rw [hmakes]
    rfl

theorem takes_setParams (a : Assembler) (n : Nat) : Takes a [.params n] (a.setParams n) := by
  have hnil : ∀ {α : Type} (xs : List α), xs = xs ++ [] := fun xs => (List.append_nil xs).symm
  have hlabels : ∀ label, label < a.labels.size → a.labels[label]? =
      some ((if (Step.params n).binds? = some label then some a.here else none).or
        (a.labels[label]?.getD none)) :=
    fun label hlt => label_kept a (fun h => by cases h) hlt
  unfold setParams
  by_cases hn : 0 < n
  · rw [if_pos hn]
    refine takes_singleton rfl rfl rfl ?_ (hnil _) (hnil _) rfl hlabels
      (fun _ h => by cases h)
    rw [inferred_touch, Nat.sub_add_cancel hn]
    rfl
  · rw [if_neg hn]
    refine takes_singleton rfl rfl rfl ?_ (hnil _) (hnil _) rfl hlabels
      (fun _ h => by cases h)
    show a.inferred = max a.inferred n
    omega

theorem takes_newLabel (a : Assembler) : Takes a [.newLabel] a.newLabel := by
  refine takes_singleton rfl rfl rfl (Nat.max_zero _).symm (List.append_nil _).symm
    (List.append_nil _).symm (Array.size_push none) (fun label hlt => ?_) (fun _ h => by cases h)
  · have hlt' : label < (a.labels.push none).size := hlt
    show (a.labels.push none)[label]? = _
    rw [Array.getElem?_push]
    split
    · next hnew =>
      rw [hnew, Array.getElem?_eq_none (Nat.le_refl _)]
      rfl
    · next hold =>
      rw [Array.size_push] at hlt'
      exact label_kept a (fun h => by cases h) (by omega)

theorem takes_bind {label : Nat} (h : label < a.labels.size) :
    ∃ b, a.bind label = .ok b ∧ Takes a [.bind label] b := by
  refine ⟨_, if_pos h, ?_⟩
  refine takes_singleton rfl rfl rfl (Nat.max_zero _).symm (List.append_nil _).symm
    (List.append_nil _).symm Array.size_setIfInBounds (fun other hlt => ?_) (fun other hother => ?_)
  · rw [Array.size_setIfInBounds] at hlt
    rw [Array.getElem?_setIfInBounds]
    by_cases hsame : label = other
    · subst hsame
      rw [if_pos rfl, if_pos h, Step.binds?, if_pos rfl]
      rfl
    · rw [if_neg hsame]
      exact label_kept a (fun hother => hsame (Option.some.inj hother)) hlt
  · rw [List.mem_singleton.mp hother]
    exact Nat.lt_of_lt_of_eq h Array.size_setIfInBounds.symm

/-- Steps on labels that were made succeed. -/
theorem takes_step (hknown : ∀ label ∈ s.labels, label < a.labels.size) :
    ∃ b, a.step s = .ok b ∧ Takes a [s] b := by
  cases s with
  | emit i => exact ⟨_, rfl, takes_emit rfl (List.append_nil _).symm hknown⟩
  | jump label => exact ⟨_, rfl, takes_emit rfl Array.toList_push hknown⟩
  | branch cond elseArm join =>
    cases join with
    | none => exact ⟨_, rfl, takes_emit rfl Array.toList_push hknown⟩
    | some label =>
      have hwaiting : ((a.await elseArm .elseArm).await label .join).fixups.toList =
          a.fixups.toList ++ Step.fixups a.here (.branch cond elseArm (some label)) := by
        unfold await
        rw [Array.toList_push, Array.toList_push, List.append_assoc]
        rfl
      exact ⟨_, rfl, takes_emit rfl hwaiting hknown⟩
  | params n => exact ⟨_, rfl, takes_setParams a n⟩
  | registers n =>
    refine ⟨_, rfl, takes_singleton rfl rfl rfl (Nat.max_zero _).symm (List.append_nil _).symm
      (List.append_nil _).symm rfl (fun label hlt => ?_) hknown⟩
    exact label_kept a (fun h => by cases h) hlt
  | newLabel => exact ⟨_, rfl, takes_newLabel a⟩
  | bind label => exact takes_bind (hknown label (List.mem_singleton.mpr rfl))

theorem takes_run (h : Scoped a.labels.size steps) :
    ∃ b, a.run steps = .ok b ∧ Takes a steps b := by
  induction steps generalizing a with
  | nil => exact ⟨a, rfl, .refl a⟩
  | cons s steps ih =>
    obtain ⟨hknown, hscoped⟩ := h
    obtain ⟨b, hb, hfirst⟩ := takes_step hknown
    have hsize : b.labels.size = a.labels.size + s.makes.toNat := by
      rw [hfirst.size_eq, countP_singleton_eq_toNat]
    obtain ⟨c, hc, hrest⟩ := ih (hsize ▸ hscoped)
    refine ⟨c, ?_, hfirst.append hrest⟩
    rw [run, hb]
    exact hc

end Takes

-- ============================================================================
-- Resolving labels
-- ============================================================================

section Resolve

variable {a : Assembler} {code : Array Instr} {done rest : List Instr} {steps : List Step}
  {s : Step} {places : Nat → Option Nat}

/-- Patching an operand changes the instruction it belongs to and no other. -/
theorem resolve_eq_ok {x : Fixup} {pc : Nat} {i j : Instr} (hcode : code.toList = done ++ i :: rest)
    (hpc : x.pc = done.length) (hlabel : a.labels[x.label]? = some (some pc))
    (hpatch : x.patch.apply? i pc = some j) :
    ∃ code', a.resolve code x = .ok code' ∧ code'.toList = done ++ j :: rest := by
  have hi : code[x.pc]? = some i := by
    rw [← Array.getElem?_toList, hcode, hpc, List.getElem?_append_right (Nat.le_refl _),
      Nat.sub_self]
    rfl
  refine ⟨code.setIfInBounds x.pc j, ?_, ?_⟩
  · unfold resolve
    simp only [hlabel, hi, hpatch]
  · rw [Array.toList_setIfInBounds, hcode, hpc, List.set_append_right _ _ (Nat.le_refl _),
      Nat.sub_self]
    rfl

/-- Resolving one operand: it gets the place of its label, unless there is none. -/
theorem resolveAll_cons {x : Fixup} {i j : Instr} (hcode : code.toList = done ++ i :: rest)
    (hpc : x.pc = done.length) (hlabel : a.labels[x.label]? = some (places x.label))
    (hpatch : x.patch.apply? i ((places x.label).getD 0) = some j) (later : List Fixup) :
    (places x.label = none ∧
      a.resolveAll code (x :: later) = .error (.program (.unboundLabel a.name x.label))) ∨
    (places x.label ≠ none ∧ ∃ code', code'.toList = done ++ j :: rest ∧
      a.resolveAll code (x :: later) = a.resolveAll code' later) := by
  cases hplace : places x.label with
  | none =>
    have hresolve : a.resolve code x = .error (.program (.unboundLabel a.name x.label)) := by
      unfold resolve
      rw [hlabel, hplace]
    exact Or.inl ⟨rfl, by rw [resolveAll, hresolve]⟩
  | some pc =>
    rw [hplace] at hlabel hpatch
    obtain ⟨code', hok, hcode'⟩ := resolve_eq_ok hcode hpc hlabel hpatch
    exact Or.inr ⟨Option.some_ne_none pc, code', hcode', by rw [resolveAll, hok]⟩

/-- Resolving the operands of one step. -/
theorem resolveAll_step
    (hcode : code.toList = done ++ ((s.instr? (fun _ => placeholder)).toList ++ rest))
    (hlabels : ∀ label ∈ s.refers, a.labels[label]? = some (places label)) (later : List Fixup) :
    (∃ label ∈ s.refers, places label = none ∧
      a.resolveAll code (s.fixups done.length ++ later) =
        .error (.program (.unboundLabel a.name label))) ∨
    ((∀ label ∈ s.refers, places label ≠ none) ∧ ∃ code',
      code'.toList = done ++ ((s.instr? (fun label => (places label).getD 0)).toList ++ rest) ∧
      a.resolveAll code (s.fixups done.length ++ later) = a.resolveAll code' later) := by
  cases s with
  | params | registers | newLabel | bind | emit =>
    exact Or.inr ⟨fun _ h => (by cases h), code, hcode, rfl⟩
  | jump label =>
    rcases resolveAll_cons (x := ⟨done.length, label, .target⟩) hcode rfl
        (hlabels label List.mem_cons_self) rfl later with
      ⟨hnone, herror⟩ | ⟨hsome, code', hcode', hok⟩
    · exact Or.inl ⟨label, List.mem_cons_self, hnone, herror⟩
    · exact Or.inr ⟨List.forall_mem_singleton.mpr hsome, code', hcode', hok⟩
  | branch cond elseArm join =>
    rcases resolveAll_cons (x := ⟨done.length, elseArm, .elseArm⟩) hcode rfl
        (hlabels elseArm List.mem_cons_self) rfl
        (join.toList.map (fun label => ⟨done.length, label, .join⟩) ++ later) with
      ⟨hnone, herror⟩ | ⟨hsome, code₁, hcode₁, hok₁⟩
    · exact Or.inl ⟨elseArm, List.mem_cons_self, hnone, herror⟩
    · cases join with
      | none => exact Or.inr ⟨List.forall_mem_singleton.mpr hsome, code₁, hcode₁, hok₁⟩
      | some label =>
        have hmem : label ∈ (Step.branch cond elseArm (some label)).refers :=
          List.mem_cons_of_mem _ (List.mem_singleton.mpr rfl)
        rcases resolveAll_cons (x := ⟨done.length, label, .join⟩) hcode₁ rfl
            (hlabels label hmem) rfl later with
          ⟨hnone, herror⟩ | ⟨hsome', code₂, hcode₂, hok₂⟩
        · exact Or.inl ⟨label, hmem, hnone, hok₁.trans herror⟩
        · refine Or.inr ⟨?_, code₂, hcode₂, hok₁.trans hok₂⟩
          exact List.forall_mem_cons.mpr ⟨hsome, List.forall_mem_singleton.mpr hsome'⟩

/-- Resolving the operands of all steps, one step after the other: an operand whose label
has no place is an error, and without one every instruction gets the places of its
labels. -/
theorem resolveAll_steps (hcode : code.toList = done ++ written (fun _ => placeholder) steps)
    (hlabels : ∀ s ∈ steps, ∀ label ∈ s.refers, a.labels[label]? = some (places label)) :
    (∃ s ∈ steps, ∃ label ∈ s.refers, places label = none ∧
      a.resolveAll code (fixupsOf done.length steps) =
        .error (.program (.unboundLabel a.name label))) ∨
    ((∀ s ∈ steps, ∀ label ∈ s.refers, places label ≠ none) ∧ ∃ code',
      code'.toList = done ++ written (fun label => (places label).getD 0) steps ∧
      a.resolveAll code (fixupsOf done.length steps) = .ok code') := by
  induction steps generalizing code done with
  | nil => exact Or.inr ⟨fun _ h => (by cases h), code, hcode, rfl⟩
  | cons s steps ih =>
    have hwritten : ∀ place, written place (s :: steps) =
        (s.instr? place).toList ++ written place steps := by
      intro place
      rw [written, List.filterMap_cons]
      cases s.instr? place <;> rfl
    rw [hwritten] at hcode
    rcases resolveAll_step hcode (hlabels s List.mem_cons_self)
        (fixupsOf (done.length + s.writes.toNat) steps) with
      ⟨label, hmem, hnone, herror⟩ | ⟨hsome, code', hcode', hok⟩
    · exact Or.inl ⟨s, List.mem_cons_self, label, hmem, hnone, herror⟩
    · -- what is done by now has grown by the instruction of this step
      have hlength : done.length + s.writes.toNat =
          (done ++ (s.instr? (fun label => (places label).getD 0)).toList).length := by
        rw [List.length_append, Option.length_toList, isSome_instr?]
        cases s.writes <;> rfl
      rw [← List.append_assoc] at hcode'
      have hrest := ih hcode' (fun t ht => hlabels t (List.mem_cons_of_mem _ ht))
      rw [← hlength] at hrest
      rcases hrest with ⟨t, ht, label, hmem, hnone, herror⟩ | ⟨hall, code'', hcode'', hdone⟩
      · exact Or.inl ⟨t, List.mem_cons_of_mem _ ht, label, hmem, hnone, hok.trans herror⟩
      · refine Or.inr ⟨List.forall_mem_cons.mpr ⟨hsome, hall⟩, code'', ?_, hok.trans hdone⟩
        rw [hcode'', hwritten, List.append_assoc]

end Resolve

-- ============================================================================
-- Finishing
-- ============================================================================

section Build

variable {name : String} {steps : List Step} {a : Assembler}

/-- The function that steps stand for, with labels at their places. -/
def assembled (name : String) (place : Nat → Nat) (steps : List Step) : Function where
  name := name
  params := lastParams steps
  registers := registerCount steps
  code := (written place steps).toArray

/-- What finishing a function comes to. -/
inductive Finishes (name : String) (steps : List Step) : Except Fault Function → Prop where
  /-- A label is referred to and not bound. -/
  | unbound {s : Step} {label : Nat} (hs : s ∈ steps) (hrefers : label ∈ s.refers)
    (hbind : .bind label ∉ steps) :
    Finishes name steps (.error (.program (.unboundLabel name label)))
  /-- Fewer registers were asked for than are needed. -/
  | uncovered {n : Nat} (hn : lastReserved steps = some n) (hcovers : ¬ Covers steps n) :
    Finishes name steps (.error (.program (.reserved name n (needed steps - 1))))
  | tooMany (hlimit : Reg.limit < registerCount steps) :
    Finishes name steps (.error (.program (.tooManyRegisters name (registerCount steps))))
  /-- Every instruction has its labels at the places where they were last bound. -/
  | ok {place : Nat → Nat}
    (hplace : ∀ s ∈ steps, ∀ label ∈ s.refers, BoundAt steps label (place label))
    (hcovers : Covers steps (registerCount steps)) (hlimit : registerCount steps ≤ Reg.limit) :
    Finishes name steps (.ok (assembled name place steps))

/-- The number of registers, where the assembler has taken all steps. -/
theorem Takes.frameSize_cases (h : Takes { name } steps a) :
    (Covers steps (registerCount steps) ∧ a.frameSize = .ok (registerCount steps)) ∨
    ∃ n, lastReserved steps = some n ∧ ¬ Covers steps n ∧
      a.frameSize = .error (.program (.reserved name n (needed steps - 1))) := by
  have hname : a.name = name := h.name_eq
  have hreserved : a.reserved = lastReserved steps := by
    rw [h.reserved_eq]
    exact Option.or_none
  have hinferred : a.inferred = needed steps := by
    rw [h.inferred_eq]
    exact Nat.zero_max _
  unfold frameSize registerCount
  rw [hreserved, hinferred, hname]
  cases lastReserved steps with
  | none => exact Or.inl ⟨needed_le_iff.mp (Nat.le_max_left _ _), rfl⟩
  | some n =>
    by_cases hn : n < needed steps
    · refine Or.inr ⟨n, rfl, fun hcovers => ?_, if_pos hn⟩
      have hle := needed_le_iff.mpr hcovers
      omega
    · exact Or.inl ⟨needed_le_iff.mp (Nat.le_of_not_lt hn), if_neg hn⟩

theorem Takes.finishes (h : Takes { name } steps a) : Finishes name steps a.build := by
  have hname : a.name = name := h.name_eq
  have hcode : a.code.toList = [] ++ written (fun _ => placeholder) steps := h.code_eq
  have hfixups : a.fixups.toList = fixupsOf ([] : List Instr).length steps := h.fixups_eq
  have hlabels : ∀ s ∈ steps, ∀ label ∈ s.refers,
      a.labels[label]? = some (bound 0 steps label) := by
    intro s hs label hl
    rw [h.label_eq label (h.known s hs label (List.mem_append_right _ hl))]
    exact congrArg some Option.or_none
  unfold build
  rw [hfixups]
  rcases resolveAll_steps hcode hlabels with
    ⟨s, hs, label, hl, hnone, herror⟩ | ⟨hall, code, hcode', hok⟩
  · rw [herror, hname]
    exact .unbound hs hl (bound_eq_none.mp hnone)
  · rw [hok]
    rcases h.frameSize_cases with ⟨hcovers, hsize⟩ | ⟨n, hn, hcovers, hsize⟩
    · dsimp only
      rw [hsize]
      dsimp only
      split
      · next hlimit =>
        rw [hname]
        exact .tooMany hlimit
      · next hlimit =>
        have hparams : a.params = lastParams steps := h.params_eq
        have hwritten :
            code = (written (fun label => (bound 0 steps label).getD 0) steps).toArray :=
          Array.ext' hcode'
        have hassembled : Function.mk a.name a.params (registerCount steps) code =
            assembled name (fun label => (bound 0 steps label).getD 0) steps := by
          rw [hname, hparams, hwritten]
          rfl
        rw [hassembled]
        refine .ok (fun s hs label hl => ?_) hcovers (Nat.le_of_not_lt hlimit)
        obtain ⟨pc, hpc⟩ := Option.ne_none_iff_exists'.mp (hall s hs label hl)
        obtain ⟨k, hk, hbound⟩ := boundAt_of_bound hpc
        rw [hpc, Option.getD_some, hk, Nat.zero_add]
        exact hbound
    · dsimp only
      rw [hsize]
      exact .uncovered hn hcovers

end Build

-- ============================================================================
-- Functions that were built
-- ============================================================================

theorem lastParams_le {steps : List Step} {n : Nat} (h : Covers steps n) :
    lastParams steps ≤ n := by
  unfold lastParams
  cases hlast : (steps.filterMap Step.params?).getLast? with
  | none => exact Nat.zero_le n
  | some p =>
    obtain ⟨s, hs, hp⟩ := List.mem_filterMap.mp (List.mem_of_getLast? hlast)
    exact (h s hs).2 p hp

/-- Steps on labels of their own always leave an assembler. It finishes the function if
and only if every label that is referred to was bound, the registers that were asked for
last cover all that is used, and there are not too many. The code is then what the steps
have written, with every label at the place where it was last bound, all registers
exist, and no operand was ever found that cannot be patched. -/
theorem labels_are_resolved (name : String) {steps : List Step} (hscoped : Scoped 0 steps) :
    ∃ a : Assembler, run { name := name } steps = .ok a ∧
      ((∃ f, a.build = .ok f) ↔
        (∀ s ∈ steps, ∀ label ∈ s.refers, .bind label ∈ steps) ∧
        (∀ n, lastReserved steps = some n → Covers steps n) ∧
        registerCount steps ≤ Reg.limit) ∧
      (∀ f, a.build = .ok f →
        (∃ place : Nat → Nat,
          (∀ s ∈ steps, ∀ label ∈ s.refers, BoundAt steps label (place label)) ∧
          f.code = (written place steps).toArray) ∧
        (f.name = name ∧ f.params = lastParams steps ∧ f.registers = registerCount steps) ∧
        (∀ i ∈ f.code, ∀ r ∈ i.reads ++ i.writes.toList, r < f.registers) ∧
        f.params ≤ f.registers) ∧
      ∀ other i, a.build ≠ .error (.program (.unpatchable other i)) := by
  obtain ⟨a, hrun, htakes⟩ := takes_run (a := { name := name }) hscoped
  have hfinishes : Finishes name steps a.build := htakes.finishes
  refine ⟨a, hrun, ⟨?_, ?_⟩, ?_, ?_⟩
  · rintro ⟨f, hf⟩
    rw [hf] at hfinishes
    cases hfinishes with
    | ok hplace hcovers hlimit =>
      refine ⟨fun s hs label hl => ?_, fun n hn => ?_, hlimit⟩
      · obtain ⟨before, after, hsteps, -⟩ := hplace s hs label hl
        rw [hsteps]
        exact List.mem_append_right _ List.mem_cons_self
      · rwa [registerCount, hn] at hcovers
  · rintro ⟨hbound, hcovers, hlimit⟩
    cases hbuild : a.build with
    | ok f => exact ⟨f, rfl⟩
    | error e =>
      rw [hbuild] at hfinishes
      cases hfinishes with
      | unbound hs hl hbind => exact absurd (hbound _ hs _ hl) hbind
      | uncovered hn hnot => exact absurd (hcovers _ hn) hnot
      | tooMany hmany => omega
  · intro f hf
    rw [hf] at hfinishes
    cases hfinishes with
    | @ok place hplace hcovers hlimit =>
      refine ⟨⟨place, hplace, rfl⟩, ⟨rfl, rfl, rfl⟩, fun i hi r hr => ?_, lastParams_le hcovers⟩
      obtain ⟨s, hs, hwrites⟩ := List.mem_filterMap.mp (List.mem_toArray.mp hi)
      rw [uses_of_instr? hwrites] at hr
      exact (hcovers s hs).1 r hr
  · intro other i hbuild
    rw [hbuild] at hfinishes
    cases hfinishes

/-- A loop. Label 0 is bound before the jump to it. Label 1 is both the else arm and the
join of a branch that comes before it, and is bound twice. In between stands a jump that
was written with its target. -/
def countdownSteps : List Step :=
  [.newLabel, .newLabel, .params 2, .bind 0, .emit (.const 1 (.int 1)), .branch 0 1 (some 1),
    .emit (.binary .sub 0 0 1), .emit (.jump 4), .bind 1, .jump 0, .bind 1, .emit (.ret 0)]

/-- The label that is bound twice is where it was bound last, and the jump that has its
target keeps it. -/
theorem labels_are_resolved_countdown :
    Scoped 0 countdownSteps ∧ ∃ a f, run { name := "countdown" } countdownSteps = .ok a ∧
      a.build = .ok f ∧ f.registers = 2 ∧ f.params ≤ f.registers ∧
      f.code = #[.const 1 (.int 1), .branch 0 5 (some 5), .binary .sub 0 0 1, .jump 4, .jump 0,
        .ret 0] := by
  have hscoped : Scoped 0 countdownSteps := by decide
  obtain ⟨a, hrun, -, hok, -⟩ := labels_are_resolved "countdown" hscoped
  have hbuilt : (run { name := "countdown" } countdownSteps >>= build) = .ok
      ⟨"countdown", 2, 2, #[.const 1 (.int 1), .branch 0 5 (some 5), .binary .sub 0 0 1, .jump 4,
        .jump 0, .ret 0]⟩ := by rfl
  rw [hrun] at hbuilt
  exact ⟨hscoped, a, _, hrun, hbuilt, rfl, (hok _ hbuilt).2.2.2, rfl⟩

end Assembler

end HotPath
