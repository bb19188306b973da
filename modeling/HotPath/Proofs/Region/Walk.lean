/-
  HotPath.Proofs.Region.Walk

  Whole walks. `Region.Walks` is what a walk that does not give up consists of,
  one rule for each way of processing an instruction, and `Region.walks_of_grow`
  says that every such walk follows the rules. By induction on them, a walk stays
  inside its budget of instructions and its operations keep up with the machine
  (`Region.Walks.walked`).
-/
import HotPath.Proofs.Region.Merge

namespace HotPath

namespace Region

variable {g : Guide}

/-- A walk that is not at its join counts an instruction, and finds it. -/
structure Begins (g : Guide) (r r₁ : Region) (i : Instr) : Prop where
  apart : r.stopAt ≠ some r.cursor
  tick : r.tick = .ok r₁
  within : r₁.steps ≤ g.policy.maxRegionInstrs
  instr : g.program.instr? r₁.loc = some i

/-- Walks that do not give up, with whether they stopped at a join. -/
inductive Walks (g : Guide) : Region → Bool → Region → Prop where
  | joined {r : Region} (h : r.stopAt = some r.cursor) : Walks g r true r
  | ends {r r₁ r' : Region} {i : Instr} (hb : Begins g r r₁ i) (hs : r₁.step g i = .ok (.ends r')) :
    Walks g r false r'
  | on {r r₁ r₂ r' : Region} {i : Instr} {j : Bool} (hb : Begins g r r₁ i)
    (hs : r₁.step g i = .ok (.on r₂)) (hw : Walks g r₂ j r') : Walks g r j r'
  /-- A split that keeps to one arm. -/
  | keep {r r₁ r' : Region} {i : Instr} {cond : Operand} {elsePc : Nat} {join : Option Nat}
    {taken j : Bool} (hb : Begins g r r₁ i) (hs : r₁.step g i = .ok (.split cond elsePc join))
    (hw : Walks g (r₁.keepArm cond taken elsePc) j r') : Walks g r j r'
  /-- A split after which the walk goes on. -/
  | rejoin {r r₁ r₂ r' a b : Region} {i : Instr} {cond : Operand} {elsePc : Nat}
    {join : Option Nat} {thenJoined elseJoined j : Bool} (hb : Begins g r r₁ i)
    (hs : r₁.step g i = .ok (.split cond elsePc join))
    (hsimple : g.program.isAllocatingSplit r₁.loc = false)
    (ht : Walks g (r₁.thenArm join) thenJoined a)
    (he : Walks g (r₁.elseArm a elsePc join) elseJoined b)
    (hj : r₁.rejoin cond a b thenJoined elseJoined = .ok (true, r₂)) (hw : Walks g r₂ j r') :
    Walks g r j r'
  /-- A split of which both arms leave. -/
  | part {r r₁ r' a b : Region} {i : Instr} {cond : Operand} {elsePc : Nat} {join : Option Nat}
    {thenJoined elseJoined : Bool} (hb : Begins g r r₁ i)
    (hs : r₁.step g i = .ok (.split cond elsePc join))
    (hsimple : g.program.isAllocatingSplit r₁.loc = false)
    (ht : Walks g (r₁.thenArm join) thenJoined a)
    (he : Walks g (r₁.elseArm a elsePc join) elseJoined b)
    (hj : r₁.rejoin cond a b thenJoined elseJoined = .ok (false, r')) : Walks g r false r'

/-- Whether a walk gave up. -/
def Ending.isGaveUp : Ending → Bool
  | .gaveUp _ => true
  | _ => false

/-- A walk that does not give up follows the rules. -/
theorem walks_of_grow {n : Nat} {r r' : Region} {ending : Ending}
    (h : grow g n r = .ok (ending, r')) (hend : ending.isGaveUp = false) :
    Walks g r ending.isJoined r' := by
  induction n generalizing r r' ending with
  | zero =>
    cases h
    cases hend
  | succ n ih =>
    rw [grow] at h
    split at h
    · next hjoin =>
      cases h
      exact .joined hjoin
    · next hapart =>
      obtain ⟨r₁, htick, h⟩ := bind_eq_ok.mp h
      split at h
      · cases h
        cases hend
      · next hwithin =>
        cases hi : g.program.instr? r₁.loc with
        | none =>
          rw [hi] at h
          cases h
        | some i =>
          rw [hi] at h
          have hb : Begins g r r₁ i := ⟨hapart, htick, Nat.le_of_not_lt hwithin, hi⟩
          obtain ⟨s, hs, h⟩ := bind_eq_ok.mp h
          cases s with
          | on r₂ => exact .on hb hs (ih h hend)
          | ends r₂ =>
            cases h
            exact .ends hb hs
          | split cond elsePc join =>
            dsimp only at h
            split at h
            · obtain ⟨arm, harm, h⟩ := bind_eq_ok.mp h
              cases arm with
              | none =>
                cases h
                cases hend
              | some taken => exact .keep hb hs (ih h hend)
            · next hsimple =>
              have hsimple := Bool.eq_false_iff.mpr hsimple
              obtain ⟨⟨thenEnd, a⟩, hthen, h⟩ := bind_eq_ok.mp h
              cases thenEnd with
              | gaveUp reason =>
                cases h
                cases hend
              | done | joined =>
                obtain ⟨⟨elseEnd, b⟩, helse, h⟩ := bind_eq_ok.mp h
                cases elseEnd with
                | gaveUp reason =>
                  cases h
                  cases hend
                | done | joined =>
                  obtain ⟨⟨goes, r₂⟩, hj, h⟩ := bind_eq_ok.mp h
                  cases goes with
                  | true => exact .rejoin hb hs hsimple (ih hthen rfl) (ih helse rfl) hj (ih h hend)
                  | false =>
                    cases h
                    exact .part hb hs hsimple (ih hthen rfl) (ih helse rfl) hj

-- ============================================================================
-- Counting an instruction
-- ============================================================================

theorem tick_eq_ok {r r₁ : Region} (h : r.tick = .ok r₁) :
    r₁ = { r with steps := r.steps + 1 } := by
  unfold tick at h
  obtain ⟨steps, hs, h⟩ := bind_eq_ok.mp h
  have hs := inWidth_eq_ok.mp hs
  unfold Word.next? at hs
  split at hs
  · cases hs
    cases h
    rfl
  · cases hs

theorem Fits.of_tick {p : Program} {fn : Function} {r r₁ : Region} (hf : r.Fits p fn)
    (h : r.tick = .ok r₁) : r₁.Fits p fn := by
  rw [tick_eq_ok h]
  exact ⟨hf.function, hf.registers, hf.cursor, hf.below⟩

theorem Begins.fits {p : Program} {fn : Function} {r r₁ : Region} {i : Instr}
    (h : Begins g r r₁ i) (hf : r.Fits p fn) : r₁.Fits p fn := hf.of_tick h.tick

variable {m : Machine} {call : Machine.Callee} {fn : Function} {limit : Nat}

/-- The instruction that was counted pays for the slots that were taken. -/
theorem Begins.carries {r r₁ r' : Region} {i : Instr} {ops : List Op} {goes : Bool}
    (h : Begins g r r₁ i) (hc : Carries m call fn limit r₁.regs.length r₁ ops goes r') :
    Carries m call fn limit 0 r ops goes r' := by
  have htick := tick_eq_ok h.tick
  subst htick
  obtain ⟨hgrows, hcode, hwithin, hcov⟩ := hc
  refine ⟨⟨hgrows.func_eq, hgrows.entry_eq, hgrows.stopAt_eq, hgrows.ops_eq, hgrows.length_eq,
    Nat.le_of_succ_le hgrows.steps_le, hgrows.nextSlot_le, ?_, hgrows.below, hgrows.allBelow⟩,
    hcode, hwithin, hcov⟩
  have hbudget : r'.nextSlot + r.regs.length * (r.steps + 1) ≤
      r.nextSlot + r.regs.length * r'.steps + r.regs.length := hgrows.budget
  rw [Nat.mul_add_one] at hbudget
  omega

-- ============================================================================
-- Arms
-- ============================================================================

section Arms

variable {p : Program} {r a : Region} {cond : Reg} {elsePc : Nat} {join : Option Nat}

theorem fits_thenArm (hf : r.Fits p fn)
    (hi : p.instr? r.loc = some (.branch cond elsePc join)) : (r.thenArm join).Fits p fn where
  function := hf.function
  registers := hf.registers
  cursor := Program.successor_lt hf.function (hf.code hi) List.mem_cons_self
  below := hf.below

theorem fits_elseArm (hf : r.Fits p fn)
    (hi : p.instr? r.loc = some (.branch cond elsePc join)) :
    (r.elseArm a elsePc join).Fits p fn where
  function := hf.function
  registers := hf.registers
  cursor := Program.successor_lt hf.function (hf.code hi)
    (List.mem_cons_of_mem _ (List.mem_singleton.mpr rfl))
  below := fun c hc => (hf.below c hc).mono (Nat.le_max_left _ _)

end Arms

-- ============================================================================
-- Walks keep up with the machine
-- ============================================================================

/-- One part of a walk, and then the rest. -/
theorem Walked.of_carries {r r₁ r₂ r' : Region} {i : Instr} {ops ops' : List Op} {j : Bool}
    (hb : Begins g r r₁ i) (hc : Carries m call fn limit r₁.regs.length r₁ ops true r₂)
    (hw : Walked m call fn limit r₂ ops' j r') :
    Walked m call fn limit r (ops ++ ops') j r' :=
  ⟨(hb.carries hc).trans hw.toCarries, hw.atJoin⟩

/-- The operations of a walk keep up with the machine. -/
theorem Walks.walked (hg : g.Describes m) {r r' : Region} {j : Bool} (h : Walks g r j r')
    (hf : r.Fits g.program fn) (hl : r.steps ≤ g.policy.maxRegionInstrs) :
    ∃ ops, Walked m call fn g.policy.maxRegionInstrs r ops j r' := by
  induction h with
  | joined h => exact ⟨[], ⟨.refl hf.below, hf.cursor, hl, .nil⟩, fun _ => h⟩
  | ends hb hs =>
    have hf₁ := hb.fits hf
    obtain ⟨kind, rfl, hk⟩ := step_ends hg hb.instr hs
    exact ⟨_, hb.carries (carries_leaveHere hf₁ hb.within hk), nofun⟩
  | @on r r₁ r₂ r' i j hb hs hw ih =>
    have hf₁ := hb.fits hf
    obtain ⟨ops, hc⟩ : ∃ ops, Carries m call fn g.policy.maxRegionInstrs r₁.regs.length r₁ ops
        true r₂ := step_on hg hf₁ hb.instr hb.within hs
    obtain ⟨ops', hw⟩ := ih (hc.grows.fits hf₁ hc.inCode) hc.within
    exact ⟨_, .of_carries hb hc hw⟩
  | @keep r r₁ r' i cond elsePc join taken j hb hs hw ih =>
    have hf₁ := hb.fits hf
    obtain ⟨reg, b, rfl, hreg, rfl⟩ := step_split hs
    have hc : Carries m call fn g.policy.maxRegionInstrs r₁.regs.length r₁ _ true _ :=
      carries_keepArm (hg.program ▸ hf₁) hb.within (hg.instr? hb.instr) hreg taken
    obtain ⟨ops', hw⟩ := ih (hc.grows.fits hf₁ hc.inCode) hc.within
    exact ⟨_, .of_carries hb hc hw⟩
  | @rejoin r r₁ r₂ r' a b i cond elsePc join thenJoined elseJoined j hb hs hsimple ht he hj hw iht
      ihe ih =>
    have hf₁ := hb.fits hf
    obtain ⟨reg, c, rfl, hreg, rfl⟩ := step_split hs
    obtain ⟨aops, ha⟩ := iht (fits_thenArm hf₁ hb.instr) hb.within
    obtain ⟨bops, hb'⟩ := ihe (fits_elseArm hf₁ hb.instr)
      (Nat.max_le.mpr ⟨hb.within, ha.within⟩)
    obtain ⟨ops, hc⟩ := rejoin_carries hf₁ (hg.instr? hb.instr) hreg (arms_of_walked ha hb') hj
    obtain ⟨ops', hw⟩ := ih (hc.grows.fits hf₁ hc.inCode) hc.within
    exact ⟨_, .of_carries hb hc hw⟩
  | @part r r₁ r' a b i cond elsePc join thenJoined elseJoined hb hs hsimple ht he hj iht ihe =>
    have hf₁ := hb.fits hf
    obtain ⟨reg, c, rfl, hreg, rfl⟩ := step_split hs
    obtain ⟨aops, ha⟩ := iht (fits_thenArm hf₁ hb.instr) hb.within
    obtain ⟨bops, hb'⟩ := ihe (fits_elseArm hf₁ hb.instr)
      (Nat.max_le.mpr ⟨hb.within, ha.within⟩)
    obtain ⟨ops, hc⟩ := rejoin_carries hf₁ (hg.instr? hb.instr) hreg (arms_of_walked ha hb') hj
    exact ⟨_, hb.carries hc, nofun⟩

end Region

end HotPath
