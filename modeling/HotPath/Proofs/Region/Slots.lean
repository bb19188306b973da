/-
  HotPath.Proofs.Region.Slots

  The slots of an attempt. `Region.Occurs` is everything that happens in a walk, in
  all arms of its splits and after any number of counted instructions: regions that
  the walk stands with, instructions that are about to be processed, and arms that
  are about to be merged.

  One instruction pays for a slot of every register. Processing it takes at most one
  slot, and a split takes none until its arms meet, so that what it pays is there for
  the merge, however many instructions and splits the arms have had by then
  (`Region.Occurs.affords`). With 64 registers at most, a budget of 2^26 - 2
  instructions cannot use up the slots of 32 bits (`Region.slots_are_paid`).
-/
import HotPath.Proofs.Region.Budget

namespace HotPath

namespace Region

-- ============================================================================
-- Moments of an attempt
-- ============================================================================

/-- What there is to see of an attempt. -/
inductive Moment where
  /-- A walk or an arm is at a region. -/
  | stands (r : Region)
  /-- An instruction was counted, and is processed next. -/
  | processes (r : Region) (i : Instr)
  /-- Both arms of a split are at its join, and are merged next. -/
  | merges (thenArm elseArm : Region)

/-- A walk that does not give up, and how many instructions it counts in all. -/
structure Spends (g : Guide) (n : Nat) (r : Region) (cost : Nat) (ending : Ending) (r' : Region) :
    Prop where
  grown : grow g n r = .ok (ending, r')
  goes : ending.isGaveUp = false
  cost_eq : (growLogged g n r).log.count .counted = cost

/-- A split of which both arms are walked, and how many instructions are counted in all,
with that of the split. -/
inductive Forks (g : Guide) (n : Nat) (r r₁ : Region) (cond : Operand) :
    Nat → Ending → Region → Ending → Region → Prop where
  | mk {i : Instr} {elsePc : Nat} {join : Option Nat} {thenCost elseCost : Nat}
    {thenEnd elseEnd : Ending} {a b : Region} (hb : Begins g r r₁ i)
    (hs : r₁.step g i = .ok (.split cond elsePc join))
    (hsimple : g.program.isAllocatingSplit r₁.loc = false)
    (ht : Spends g n (r₁.thenArm join) thenCost thenEnd a)
    (he : Spends g n (r₁.elseArm a elsePc join) elseCost elseEnd b) :
    Forks g n r r₁ cond (1 + thenCost + elseCost) thenEnd a elseEnd b

/-- The regions that a walk goes on from, and how many instructions it has counted by
then. -/
inductive GoesOn (g : Guide) (n : Nat) (r : Region) : Nat → Region → Prop where
  | on {r₁ r₂ : Region} {i : Instr} (hb : Begins g r r₁ i) (hs : r₁.step g i = .ok (.on r₂)) :
    GoesOn g n r 1 r₂
  | keep {r₁ : Region} {i : Instr} {cond : Operand} {elsePc : Nat} {join : Option Nat}
    {taken : Bool} (hb : Begins g r r₁ i) (hs : r₁.step g i = .ok (.split cond elsePc join))
    (halloc : g.program.isAllocatingSplit r₁.loc = true)
    (harm : g.hotArm r₁.loc = .ok (some taken)) : GoesOn g n r 1 (r₁.keepArm cond taken elsePc)
  | thenArm {r₁ : Region} {i : Instr} {cond : Operand} {elsePc : Nat} {join : Option Nat}
    (hb : Begins g r r₁ i) (hs : r₁.step g i = .ok (.split cond elsePc join))
    (hsimple : g.program.isAllocatingSplit r₁.loc = false) : GoesOn g n r 1 (r₁.thenArm join)
  | elseArm {r₁ a : Region} {i : Instr} {cond : Operand} {elsePc cost : Nat} {join : Option Nat}
    {thenEnd : Ending} (hb : Begins g r r₁ i) (hs : r₁.step g i = .ok (.split cond elsePc join))
    (hsimple : g.program.isAllocatingSplit r₁.loc = false)
    (ht : Spends g n (r₁.thenArm join) cost thenEnd a) :
    GoesOn g n r (1 + cost) (r₁.elseArm a elsePc join)
  | rejoin {r₁ r₂ a b : Region} {cond : Operand} {cost : Nat} {thenEnd elseEnd : Ending}
    (hf : Forks g n r r₁ cond cost thenEnd a elseEnd b)
    (hj : r₁.rejoin cond a b thenEnd.isJoined elseEnd.isJoined = .ok (true, r₂)) :
    GoesOn g n r cost r₂

/-- What happens in a walk on an allowance, after a number of counted instructions. -/
inductive Occurs (g : Guide) : Nat → Region → Nat → Moment → Prop where
  | starts {n : Nat} {r : Region} : Occurs g n r 0 (.stands r)
  | counts {n : Nat} {r r₁ : Region} (hapart : r.stopAt ≠ some r.cursor)
    (htick : r.tick = .ok r₁) : Occurs g (n + 1) r 1 (.stands r₁)
  | processes {n : Nat} {r r₁ : Region} {i : Instr} (hb : Begins g r r₁ i) :
    Occurs g (n + 1) r 1 (.processes r₁ i)
  | ends {n : Nat} {r r₁ r' : Region} {i : Instr} (hb : Begins g r r₁ i)
    (hs : r₁.step g i = .ok (.ends r')) : Occurs g (n + 1) r 1 (.stands r')
  | merges {n cost : Nat} {r r₁ a b : Region} {cond : Operand}
    (hf : Forks g n r r₁ cond cost .joined a .joined b) : Occurs g (n + 1) r cost (.merges a b)
  | rejoins {n cost : Nat} {r r₁ r₂ a b : Region} {cond : Operand} {thenEnd elseEnd : Ending}
    {goes : Bool} (hf : Forks g n r r₁ cond cost thenEnd a elseEnd b)
    (hj : r₁.rejoin cond a b thenEnd.isJoined elseEnd.isJoined = .ok (goes, r₂)) :
    Occurs g (n + 1) r cost (.stands r₂)
  | later {n cost spent : Nat} {r r' : Region} {moment : Moment} (hg : GoesOn g n r cost r')
    (h : Occurs g n r' spent moment) : Occurs g (n + 1) r (cost + spent) moment

/-- What happens in an attempt to specialize a region. -/
def Shows (g : Guide) (r : Region) : Nat → Moment → Prop :=
  Occurs g (g.policy.maxRegionInstrs + 2) r

variable {g : Guide} {fn : Function} {r r' : Region} {n : Nat}

/-- The region at the end of a walk is one that the walk stands with, also if it gives
up. -/
theorem occurs_of_grow {ending : Ending} (h : grow g n r = .ok (ending, r')) :
    ∃ spent, Occurs g n r spent (.stands r') := by
  induction n generalizing r r' ending with
  | zero =>
    cases h
    exact ⟨0, .starts⟩
  | succ n ih =>
    have hlater : ∀ {cost r₂ ending}, GoesOn g n r cost r₂ → grow g n r₂ = .ok (ending, r') →
        ∃ spent, Occurs g (n + 1) r spent (.stands r') := by
      intro cost r₂ ending hg h
      obtain ⟨spent, hocc⟩ := ih h
      exact ⟨_, .later hg hocc⟩
    rw [grow] at h
    split at h
    · cases h
      exact ⟨0, .starts⟩
    · next hapart =>
      obtain ⟨r₁, htick, h⟩ := bind_eq_ok.mp h
      split at h
      · cases h
        exact ⟨1, .counts hapart htick⟩
      · next hwithin =>
        cases hi : g.program.instr? r₁.loc with
        | none =>
          rw [hi] at h
          cases h
        | some i =>
          rw [hi] at h
          have hb : Begins g r r₁ i := ⟨hapart, htick, Nat.le_of_not_lt hwithin, hi⟩
          obtain ⟨s, hs, h⟩ := bind_eq_ok.mp h
          cases s with
          | on r₂ => exact hlater (.on hb hs) h
          | ends r₂ =>
            cases h
            exact ⟨1, .ends hb hs⟩
          | split cond elsePc join =>
            dsimp only at h
            split at h
            · next halloc =>
              obtain ⟨arm, harm, h⟩ := bind_eq_ok.mp h
              cases arm with
              | none =>
                cases h
                exact ⟨1, .counts hapart htick⟩
              | some taken => exact hlater (.keep hb hs halloc harm) h
            · next hsimple =>
              have hsimple := Bool.eq_false_iff.mpr hsimple
              obtain ⟨⟨thenEnd, a⟩, hthen, h⟩ := bind_eq_ok.mp h
              cases thenEnd with
              | gaveUp reason =>
                cases h
                exact hlater (.thenArm hb hs hsimple) hthen
              | done | joined =>
                have ht : Spends g n (r₁.thenArm join) _ _ a := ⟨hthen, rfl, rfl⟩
                obtain ⟨⟨elseEnd, b⟩, helse, h⟩ := bind_eq_ok.mp h
                cases elseEnd with
                | gaveUp reason =>
                  cases h
                  exact hlater (.elseArm hb hs hsimple ht) helse
                | done | joined =>
                  have he : Spends g n (r₁.elseArm a elsePc join) _ _ b := ⟨helse, rfl, rfl⟩
                  obtain ⟨⟨goes, r₂⟩, hj, h⟩ := bind_eq_ok.mp h
                  cases goes with
                  | true => exact hlater (.rejoin (.mk hb hs hsimple ht he) hj) h
                  | false =>
                    cases h
                    exact ⟨_, .rejoins (.mk hb hs hsimple ht he) hj⟩

-- ============================================================================
-- Counting
-- ============================================================================

/-- A region to walk from on an allowance that is larger than what is left of its
budget. -/
structure Provided (g : Guide) (fn : Function) (n : Nat) (r : Region) : Prop
    extends r.Ready g fn where
  allowance : g.policy.maxRegionInstrs + 2 ≤ n + r.steps

variable {r₁ r₂ a b : Region} {cond : Operand} {cost spent : Nat} {goes : Bool}
variable {ending thenEnd elseEnd : Ending}

theorem Provided.registers_le (hr : r.Provided g fn n) : fn.registers ≤ Reg.limit := by
  rw [← hr.fits.registers]
  exact hr.fits.limit

theorem Spends.steps_eq (h : Spends g n r cost ending r') (hr : r.Provided g fn n) :
    r'.steps = r.steps + cost := by
  have hresult : (growLogged g n r).result = .ok (ending, r') :=
    (result_growLogged g n r).trans h.grown
  rw [← h.cost_eq]
  exact (accounts_growLogged hr.within hr.allowance).steps_eq ending r' hresult h.goes

theorem Spends.walked (h : Spends g n r cost ending r') (hr : r.Provided g fn n) :
    ∃ ops, Walked g.machine .never fn g.policy.maxRegionInstrs r ops ending.isJoined r' :=
  hr.walked_of_grow h.grown h.goes

theorem GoesOn.visits (h : GoesOn g n r cost r') : Visits g n r r' := by
  cases h with
  | on hb hs => exact .on hb hs
  | keep hb hs halloc harm => exact .keep hb hs _
  | thenArm hb hs hsimple => exact .thenArm hb hs
  | elseArm hb hs hsimple ht => exact .elseArm hb hs ht.grown ht.goes
  | rejoin hf hj =>
    cases hf with
    | mk hb hs hsimple ht he => exact .rejoin hb hs ht.grown ht.goes he.grown he.goes hj

/-- A walk goes on with an allowance that is still larger than its budget. -/
theorem GoesOn.provided (h : GoesOn g n r cost r') (hr : r.Provided g fn (n + 1)) :
    r'.Provided g fn n := by
  obtain ⟨hready, hlt⟩ := h.visits.ready hr.toReady
  have hallow := hr.allowance
  exact ⟨hready, by omega⟩

/-- Both arms of a split are walked from where the split is, and the second ends with the
count of all. -/
theorem Forks.arms (h : Forks g n r r₁ cond cost thenEnd a elseEnd b)
    (hr : r.Provided g fn (n + 1)) :
    ∃ reg elsePc join c, Begins g r r₁ (.branch reg elsePc join) ∧ r₁.regs[reg]? = some c ∧
      cond = c.operand ∧ b.steps = r.steps + cost ∧
      Arms g.machine .never fn g.policy.maxRegionInstrs r₁ elsePc a b thenEnd.isJoined
        elseEnd.isJoined := by
  cases h with
  | @mk i elsePc join thenCost elseCost _ _ _ _ hb hs hsimple ht he =>
    have hthen : (r₁.thenArm join).Provided g fn n :=
      (GoesOn.thenArm hb hs hsimple).provided hr
    have helse : (r₁.elseArm a elsePc join).Provided g fn n :=
      (GoesOn.elseArm hb hs hsimple ht).provided hr
    obtain ⟨aops, ha⟩ := ht.walked hthen
    obtain ⟨bops, hb'⟩ := he.walked helse
    have hsteps := hb.steps_eq
    have hasteps : a.steps = r₁.steps + thenCost := ht.steps_eq hthen
    have hbsteps : b.steps = max r₁.steps a.steps + elseCost := he.steps_eq helse
    obtain ⟨reg, c, rfl, hreg, rfl⟩ := step_split hs
    exact ⟨reg, elsePc, join, c, hb, hreg, rfl, by omega, arms_of_walked ha hb'⟩

theorem Forks.steps_rejoin (h : Forks g n r r₁ cond cost thenEnd a elseEnd b)
    (hr : r.Provided g fn (n + 1))
    (hj : r₁.rejoin cond a b thenEnd.isJoined elseEnd.isJoined = .ok (goes, r₂)) :
    r₂.steps = r.steps + cost := by
  obtain ⟨reg, elsePc, join, c, -, -, -, hsteps, harms⟩ := h.arms hr
  rw [Region.steps_rejoin hj harms.steps_le harms.steps_le', hsteps]

theorem GoesOn.steps_eq (h : GoesOn g n r cost r') (hr : r.Provided g fn (n + 1)) :
    r'.steps = r.steps + cost := by
  cases h with
  | on hb hs => rw [steps_step_on hs, hb.steps_eq]
  | keep hb hs halloc harm => exact hb.steps_eq
  | thenArm hb hs hsimple => exact hb.steps_eq
  | @elseArm r₁ a i cond elsePc cost join thenEnd hb hs hsimple ht =>
    have hthen : (r₁.thenArm join).Provided g fn n :=
      (GoesOn.thenArm hb hs hsimple).provided hr
    have hasteps : a.steps = r₁.steps + cost := ht.steps_eq hthen
    have hsteps := hb.steps_eq
    show max r₁.steps a.steps = r.steps + (1 + cost)
    omega
  | rejoin hf hj => exact hf.steps_rejoin hr hj

-- ============================================================================
-- Paying
-- ============================================================================

/-- What the instructions that were counted pay for, each with a slot of every register.
An instruction that is processed next has not used what it pays, and neither has the
split of arms that are merged next. -/
def Moment.Affords (registers limit spent : Nat) : Moment → Prop
  | .stands r => r.steps = spent ∧ r.nextSlot ≤ registers + registers * spent
  | .processes r _ => spent ≤ limit ∧ r.nextSlot ≤ registers * spent
  | .merges a b => spent ≤ limit ∧ a.regs.length = registers ∧
    max a.nextSlot b.nextSlot ≤ registers * spent

theorem Ready.nextSlot_le (hr : r.Ready g fn) :
    r.nextSlot ≤ fn.registers + fn.registers * r.steps := by
  have hpaid := hr.paid
  unfold Paid at hpaid
  rw [hr.fits.registers, Nat.mul_add_one] at hpaid
  omega

/-- An instruction that was counted has paid for its slots. -/
theorem Ready.nextSlot_le_of_tick (hr : r.Ready g fn) (h : r.tick = .ok r₁) :
    r₁.nextSlot ≤ fn.registers * (r.steps + 1) := by
  have hpaid := hr.paid
  unfold Paid at hpaid
  rw [hr.fits.registers] at hpaid
  rw [tick_eq_ok h]
  exact hpaid

/-- Arms leave what their split has paid. -/
theorem Forks.nextSlot_le (h : Forks g n r r₁ cond cost thenEnd a elseEnd b)
    (hr : r.Provided g fn (n + 1)) :
    a.nextSlot ≤ b.nextSlot ∧ b.nextSlot ≤ fn.registers * (r.steps + cost) := by
  obtain ⟨reg, elsePc, join, c, hb, -, -, hsteps, harms⟩ := h.arms hr
  have hpaid : r₁.nextSlot ≤ fn.registers * r₁.steps := by
    rw [hb.steps_eq]
    exact hr.nextSlot_le_of_tick hb.tick
  have hbudget := harms.budget
  rw [(hb.ready hr.toReady).fits.registers, hsteps] at hbudget
  exact ⟨harms.nextSlot_le', by omega⟩

/-- What arms leave is enough to put them together. -/
theorem Forks.nextSlot_rejoin_le (h : Forks g n r r₁ cond cost thenEnd a elseEnd b)
    (hr : r.Provided g fn (n + 1))
    (hj : r₁.rejoin cond a b thenEnd.isJoined elseEnd.isJoined = .ok (goes, r₂)) :
    r₂.nextSlot ≤ fn.registers + fn.registers * (r.steps + cost) := by
  have hsteps := h.steps_rejoin hr hj
  obtain ⟨reg, elsePc, join, c, hb, hreg, rfl, -, harms⟩ := h.arms hr
  have hfits := (hb.ready hr.toReady).fits
  obtain ⟨ops, hc⟩ := rejoin_carries hfits hb.instr hreg harms hj
  have hpaid : r₂.nextSlot ≤ r₂.regs.length * (r₂.steps + 1) :=
    (hb.carries hc).grows.paid hr.paid
  rw [hc.grows.length_eq, hfits.registers, hsteps, Nat.mul_add_one] at hpaid
  omega

/-- What happens in a walk is paid for by the instructions that were counted by then. -/
theorem Occurs.affords {moment : Moment} (h : Occurs g n r spent moment)
    (hr : r.Provided g fn n) :
    moment.Affords fn.registers g.policy.maxRegionInstrs (r.steps + spent) := by
  -- on the walk; what a later part pays for is counted from where the walk goes on
  induction h with
  | starts => exact ⟨rfl, hr.nextSlot_le⟩
  | counts hapart htick =>
    have hnext := hr.nextSlot_le_of_tick htick
    exact ⟨by rw [tick_eq_ok htick], Nat.le_trans hnext (Nat.le_add_left _ _)⟩
  | processes hb =>
    have hwithin := hb.within
    rw [hb.steps_eq] at hwithin
    exact ⟨hwithin, hr.nextSlot_le_of_tick hb.tick⟩
  | @ends n r r₁ r' i hb hs =>
    have hnext : r'.nextSlot = r₁.nextSlot := by
      cases treats_of_step hs with
      | arrive | promote | ret => rfl
    refine ⟨(steps_step_ends hs).trans hb.steps_eq, ?_⟩
    rw [hnext]
    exact Nat.le_trans (hr.nextSlot_le_of_tick hb.tick) (Nat.le_add_left _ _)
  | merges hf =>
    obtain ⟨hab, hnext⟩ := hf.nextSlot_le hr
    obtain ⟨reg, elsePc, join, c, hb, -, -, hsteps, harms⟩ := hf.arms hr
    refine ⟨hsteps ▸ harms.within, ?_, Nat.max_le.mpr ⟨Nat.le_trans hab hnext, hnext⟩⟩
    exact harms.thenFits.2.1.trans (hb.ready hr.toReady).fits.registers
  | rejoins hf hj => exact ⟨hf.steps_rejoin hr hj, hf.nextSlot_rejoin_le hr hj⟩
  | later hg h ih =>
    have hrest := ih (hg.provided hr)
    rw [hg.steps_eq hr, Nat.add_assoc] at hrest
    exact hrest

-- ============================================================================
-- Slots that are never used up
-- ============================================================================

/-- Merging takes at most one slot for every register. -/
theorem nextSlot_weave_le {next : Nat} {ts es : List Binding} {w : Weave}
    (h : weave next ts es = .ok w) : w.nextSlot ≤ next + ts.length := by
  induction ts generalizing next es w with
  | nil =>
    cases h
    exact Nat.le_refl _
  | cons t ts ih =>
    cases es with
    | nil =>
      cases h
      exact Nat.le_add_right _ _
    | cons e es =>
      rw [List.length_cons]
      rcases weave_cons_eq_ok h with ⟨b, w', -, hw, rfl⟩ | ⟨w', -, hw, rfl⟩
      · have hrest := ih hw
        exact Nat.le_trans hrest (Nat.add_le_add_left (Nat.le_succ _) _)
      · have hrest := ih hw
        rw [← Nat.succ_add_eq_add_succ]
        exact hrest

/-- With a budget of at most 2^26 - 2 instructions, what they pay for and a slot more for
every register fit in 32 bits. -/
theorem slots_lt_max32 {registers limit : Nat} (hregs : registers ≤ Reg.limit)
    (hspent : spent ≤ limit) (hlimit : limit ≤ 67108862) :
    registers * spent + registers < Word.max32 := by
  have hreg : Reg.limit = 64 := rfl
  have hmax : Word.max32 = 4294967295 := rfl
  have hmul : registers * spent ≤ 64 * 67108862 := Nat.mul_le_mul (by omega) (by omega)
  omega

theorem fresh_succeeds (h : r.nextSlot < Word.max32) : Succeeds r.fresh :=
  ((nextSlot?_succeedsIf (c := True) (fun _ => h)).succeeds trivial).bind (fun _ _ => .ok _)

theorem tick_succeeds (h : r.steps < Word.max) : Succeeds r.tick := by
  unfold tick
  rw [Word.next?_of_lt h]
  exact .ok _

section Walk

variable (hbudget : g.policy.maxRegionInstrs ≤ 67108862)
include hbudget

/-- Arms can be put together: there are slots for every register. -/
theorem Forks.rejoin_succeeds (h : Forks g n r r₁ cond cost thenEnd a elseEnd b)
    (hr : r.Provided g fn (n + 1)) :
    Succeeds (r₁.rejoin cond a b thenEnd.isJoined elseEnd.isJoined) := by
  obtain ⟨-, hnext⟩ := h.nextSlot_le hr
  obtain ⟨reg, elsePc, join, c, hb, -, -, hsteps, harms⟩ := h.arms hr
  have hfits := (hb.ready hr.toReady).fits
  have hroom : b.nextSlot + r₁.regs.length ≤ Word.max32 := by
    have hlt := slots_lt_max32 hfits.limit (hsteps ▸ harms.within) hbudget
    rw [hfits.registers] at hlt ⊢
    omega
  cases h with
  | mk hb hs hsimple ht he =>
    obtain ⟨aops, ha⟩ := ht.walked ((GoesOn.thenArm hb hs hsimple).provided hr)
    obtain ⟨bops, hb'⟩ := he.walked ((GoesOn.elseArm hb hs hsimple ht).provided hr)
    exact (rejoin_succeedsIf ha hb' (fun _ : True => hroom) cond).succeeds trivial

/-- There is a slot for every instruction that is processed. -/
theorem Occurs.nextSlot_lt {i : Instr} (h : Occurs g n r spent (.processes r' i))
    (hr : r.Provided g fn n) : r'.nextSlot < Word.max32 := by
  obtain ⟨hspent, hnext⟩ := h.affords hr
  have hroom := slots_lt_max32 hr.registers_le hspent hbudget
  omega

/-- There are slots for every register of arms that are merged, and they are paid for. -/
theorem Occurs.weave_succeeds (h : Occurs g n r spent (.merges a b)) (hr : r.Provided g fn n) :
    ∃ w, weave (max a.nextSlot b.nextSlot) a.regs b.regs = .ok w ∧
      w.nextSlot ≤ fn.registers + fn.registers * (r.steps + spent) := by
  obtain ⟨hspent, hlen, hnext⟩ := h.affords hr
  have hroom := slots_lt_max32 hr.registers_le hspent hbudget
  have hfree : max a.nextSlot b.nextSlot + a.regs.length ≤ Word.max32 := by
    rw [hlen]
    omega
  have hweave : Succeeds (weave (max a.nextSlot b.nextSlot) a.regs b.regs) :=
    (weave_succeedsIf (fun _ : True => hfree)).succeeds trivial
  obtain ⟨w, hw⟩ := hweave
  have hle := nextSlot_weave_le hw
  rw [hlen] at hle
  exact ⟨w, hw, Nat.le_trans hle (by omega)⟩

/-- A walk comes to an end if it can tell the dominating arm wherever it has to. -/
theorem grow_succeeds (hr : r.Provided g fn n)
    (htold : ∀ spent r' i, Occurs g n r spent (.processes r' i) →
      g.program.isAllocatingSplit r'.loc = true → Succeeds (g.hotArm r'.loc)) :
    Succeeds (grow g n r) := by
  induction n generalizing r with
  | zero => exact .ok _
  | succ n ih =>
    have hnext : ∀ {cost r₂}, GoesOn g n r cost r₂ → Succeeds (grow g n r₂) := fun hg =>
      ih (hg.provided hr) (fun _ r' i hocc => htold _ r' i (.later hg hocc))
    rw [grow]
    split
    · exact .ok _
    · next hapart =>
      have hsteps : r.steps < Word.max := by
        have hmax : Word.max = 18446744073709551615 := rfl
        have hwithin := hr.within
        omega
      refine (tick_succeeds hsteps).bind (fun r₁ htick => ?_)
      split
      · exact .ok _
      · next hwithin =>
        have hf₁ : r₁.Fits g.program fn := hr.fits.of_tick htick
        obtain ⟨i, hi⟩ := hf₁.exists_instr
        have hb : Begins g r r₁ i := ⟨hapart, htick, Nat.le_of_not_lt hwithin, hi⟩
        have hocc : Occurs g (n + 1) r 1 (.processes r₁ i) := .processes hb
        have hslot := hocc.nextSlot_lt hbudget hr
        rw [hi]
        refine ((step_succeedsIf hf₁ hi (fun _ : True => hslot)).succeeds trivial).bind
          (fun s hs => ?_)
        cases s with
        | on r₂ => exact hnext (.on hb hs)
        | ends r₂ => exact .ok _
        | split cond elsePc join =>
          dsimp only
          split
          · next halloc =>
            refine (htold 1 r₁ i hocc halloc).bind (fun arm harm => ?_)
            cases arm with
            | none => exact .ok _
            | some taken => exact hnext (.keep hb hs halloc harm)
          · next hsimple =>
            have hsimple := Bool.eq_false_iff.mpr hsimple
            refine (hnext (.thenArm hb hs hsimple)).bind (fun thenWalk hthen => ?_)
            obtain ⟨thenEnd, a⟩ := thenWalk
            cases thenEnd with
            | gaveUp reason => exact .ok _
            | done | joined =>
              have ht : Spends g n (r₁.thenArm join) _ _ a := ⟨hthen, rfl, rfl⟩
              refine (hnext (.elseArm hb hs hsimple ht)).bind (fun elseWalk helse => ?_)
              obtain ⟨elseEnd, b⟩ := elseWalk
              cases elseEnd with
              | gaveUp reason => exact .ok _
              | done | joined =>
                have he : Spends g n (r₁.elseArm a elsePc join) _ _ b := ⟨helse, rfl, rfl⟩
                have hfork := Forks.mk hb hs hsimple ht he
                refine (hfork.rejoin_succeeds hbudget hr).bind (fun rejoined hj => ?_)
                obtain ⟨goes, r₂⟩ := rejoined
                cases goes with
                | true => exact hnext (.rejoin hfork hj)
                | false => exact .ok _

end Walk

-- ============================================================================
-- Attempts
-- ============================================================================

/-- The slots of an attempt are paid for by its instructions, in every walk and every arm
and at every moment: after `s` of them, at most a slot of every register has been taken
for each and one at the start. A committed trace has no more. A budget of at most 2^26 - 2
instructions therefore leaves slots of 32 bits for every instruction and every merge, and an
attempt that can tell dominating arms comes to a verdict. -/
theorem slots_are_paid {f : Frame} (hr : Opens f r)
    (hfn : g.program.functions[r.func]? = some fn) (hsize : f.size = fn.registers)
    (hpc : r.cursor < fn.code.size) :
    ((∀ s r', Shows g r s (.stands r') → r'.steps = s ∧ r'.nextSlot ≤ f.size + f.size * s) ∧
      ∀ ending r', (attempt g r).result = .ok (ending, r') → ∃ s, Shows g r s (.stands r')) ∧
    (∀ t, r.specialize g = .ok (.committed t) →
      t.slots ≤ f.size + f.size * (attempt g r).log.count .counted) ∧
    (g.policy.maxRegionInstrs ≤ 67108862 →
      (∀ s r' i, Shows g r s (.processes r' i) → ∃ q, r'.fresh = .ok q) ∧
      (∀ s a b, Shows g r s (.merges a b) →
        ∃ w, weave (max a.nextSlot b.nextSlot) a.regs b.regs = .ok w ∧
          w.nextSlot ≤ f.size + f.size * s) ∧
      ((∀ s r' i, Shows g r s (.processes r' i) → g.program.isAllocatingSplit r'.loc = true →
          ∃ arm, g.hotArm r'.loc = .ok arm) →
        ∃ v, r.specialize g = .ok v)) := by
  obtain ⟨loc, origin, rfl⟩ := hr.eq_entering
  have hready : (entering loc f origin).Ready g fn := ready_entering loc origin hfn hsize hpc
  have hprov : (entering loc f origin).Provided g fn (g.policy.maxRegionInstrs + 2) :=
    ⟨hready, Nat.le_refl _⟩
  have hzero : ∀ s, (entering loc f origin).steps + s = s := Nat.zero_add
  have hstands : ∀ s r', Shows g (entering loc f origin) s (.stands r') →
      r'.steps = s ∧ r'.nextSlot ≤ f.size + f.size * s := by
    intro s r' h
    have hpaid := h.affords hprov
    rw [hzero, ← hsize] at hpaid
    exact hpaid
  have hends : ∀ ending r', (attempt g (entering loc f origin)).result = .ok (ending, r') →
      ∃ s, Shows g (entering loc f origin) s (.stands r') := by
    intro ending r' h
    exact occurs_of_grow ((result_growLogged g _ _).symm.trans h)
  refine ⟨⟨hstands, hends⟩, ?_, fun hbudget => ⟨?_, ?_, ?_⟩⟩
  · intro t ht
    obtain ⟨r', hgrow, rfl⟩ := grow_of_committed ht
    have hres := (result_growLogged g _ _).trans hgrow
    obtain ⟨s, hs⟩ := hends _ r' hres
    obtain ⟨hsteps, hnext⟩ := hstands s r' hs
    have hcount := (accounts_attempt hr).steps_eq _ r' hres rfl
    rw [Nat.zero_add, hsteps] at hcount
    rw [← hcount]
    exact hnext
  · intro s r' i h
    exact fresh_succeeds (h.nextSlot_lt hbudget hprov)
  · intro s a b h
    have hweave := h.weave_succeeds hbudget hprov
    rw [hzero, ← hsize] at hweave
    exact hweave
  · intro htold
    have hgrow := grow_succeeds hbudget hprov htold
    exact (specialize_succeedsIf_of_grow hready rfl (hgrow.when (c := True))).succeeds trivial

/-- The grading loop, where it comes to its outer split. -/
def atGrades : Region :=
  { func := 0, entry := ⟨0, 1⟩, regs := [.slot 2 true, .slot 1 false], ops := #[.input 2],
    cursor := 2, nextSlot := 3, steps := 1 }

/-- The arm of the outer split that has the other one, at the join. -/
def gradesHigh : Region :=
  { func := 0, entry := ⟨0, 1⟩, regs := [.slot 2 true, .slot 3 false],
    ops := #[.branch (.slot 1) [.const 3 (.int 1)] [.const 3 (.int 2)]], cursor := 9,
    nextSlot := 4, stopAt := some 9, steps := 7 }

/-- The other arm, at the join. -/
def gradesLow : Region :=
  { func := 0, entry := ⟨0, 1⟩, regs := [.slot 2 true, .literal (.int 3)], cursor := 9,
    nextSlot := 4, stopAt := some 9, steps := 8 }

/-- The arms of the outer split of the grading loop are merged after eight instructions, and
eleven are counted in all. -/
theorem slots_are_paid_grading :
    Shows ⟨gradingProgram, { maxRegionInstrs := 11 }, {}, {}⟩ (generic ⟨0, 1⟩ (Frame.blank 2)) 8
      (.merges gradesHigh gradesLow) ∧
    (∃ w, weave 4 gradesHigh.regs gradesLow.regs = .ok w ∧ w.nextSlot ≤ 2 + 2 * 8) ∧
    (generic ⟨0, 1⟩ (Frame.blank 2)).specialize
      ⟨gradingProgram, { maxRegionInstrs := 11 }, {}, {}⟩ = .ok (.committed gradingTrace) ∧
    gradingTrace.slots ≤ 2 + 2 * 11 := by
  have hpaid := slots_are_paid (g := ⟨gradingProgram, { maxRegionInstrs := 11 }, {}, {}⟩)
    (.generic ⟨0, 1⟩ : Opens (Frame.blank 2) _) rfl rfl (by decide)
  have hon : GoesOn ⟨gradingProgram, { maxRegionInstrs := 11 }, {}, {}⟩ 12
      (generic ⟨0, 1⟩ (Frame.blank 2)) 1 atGrades :=
    .on ⟨by decide, rfl, by decide, rfl⟩ rfl
  have hfork : Forks ⟨gradingProgram, { maxRegionInstrs := 11 }, {}, {}⟩ 11 atGrades
      { atGrades with steps := 2 } (.slot 2) (1 + 5 + 1) .joined gradesHigh .joined gradesLow :=
    .mk (i := .branch 0 8 (some 9)) ⟨by decide, rfl, by decide, rfl⟩ rfl (by decide +kernel)
      ⟨by with_unfolding_all rfl, rfl, by decide +kernel⟩
      ⟨by with_unfolding_all rfl, rfl, by decide +kernel⟩
  have hshows := Occurs.later hon (.merges hfork)
  have ht : (generic ⟨0, 1⟩ (Frame.blank 2)).specialize
      ⟨gradingProgram, { maxRegionInstrs := 11 }, {}, {}⟩ = .ok (.committed gradingTrace) := by
    with_unfolding_all rfl
  have hcount : (attempt ⟨gradingProgram, { maxRegionInstrs := 11 }, {}, {}⟩
      (generic ⟨0, 1⟩ (Frame.blank 2))).log.count .counted = 11 := by decide +kernel
  have hslots := hpaid.2.1 gradingTrace ht
  rw [hcount] at hslots
  exact ⟨hshows, (hpaid.2.2 (by decide)).2.1 8 gradesHigh gradesLow hshows, ht, hslots⟩

end Region

end HotPath
