/-
  HotPath.Proofs.Region.Budget

  The budget of an attempt. Regions carry a count of instructions, which is copied into
  the arms of a split and handed from one arm to the next and back. `Region.growLogged`
  is the walk that also keeps a log, one mark for each instruction that any walk or arm
  counts and one for each that ends; without the log it is `Region.grow`
  (`Region.result_growLogged`).

  Against the log, the count that is carried is exact: a walk or an arm that ends has
  the count of all instructions so far, and the first instruction past the budget ends
  the whole attempt (`Region.Accounts`). This is shown for each way of going on and put
  together along the walk (`Region.accounts_growLogged`), so that it does not matter how
  splits nest.
-/
import HotPath.Proofs.Region.Total
import HotPath.Proofs.Region.WellFormed

namespace HotPath

namespace Region

-- ============================================================================
-- Walks with a log
-- ============================================================================

/-- What is written down in the course of an attempt. -/
inductive Mark where
  /-- An instruction was counted. -/
  | counted
  /-- A walk or an arm ended without giving up, and this was its count. -/
  | ended (steps : Nat)
  /-- A walk ran out of its allowance. -/
  | stranded
  deriving DecidableEq

/-- A computation that may fail, with what was written down by then. -/
structure Logged (α : Type) where
  log : List Mark
  result : Except Fault α

namespace Logged

variable {α β : Type}

/-- Goes on with a result, and with the log so far. -/
def andThen (x : Logged α) (next : α → Logged β) : Logged β :=
  match x.result with
  | .ok a => ⟨x.log ++ (next a).log, (next a).result⟩
  | .error e => ⟨x.log, .error e⟩

instance : Monad Logged where
  pure a := ⟨[], .ok a⟩
  bind := andThen

/-- Writes a mark down. -/
def write (m : Mark) : Logged Unit := ⟨[m], .ok ()⟩

/-- Writes nothing down. -/
def quietly (x : Except Fault α) : Logged α := ⟨[], x⟩

variable {x : Logged α} {next : α → Logged β}

theorem bind_of_ok {a : α} (h : x.result = .ok a) :
    x >>= next = ⟨x.log ++ (next a).log, (next a).result⟩ := by
  show x.andThen next = _
  unfold andThen
  rw [h]

theorem bind_of_error {e : Fault} (h : x.result = .error e) : x >>= next = ⟨x.log, .error e⟩ := by
  show x.andThen next = _
  unfold andThen
  rw [h]

theorem result_bind : (x >>= next).result = x.result >>= fun a => (next a).result := by
  cases h : x.result with
  | ok a =>
    rw [bind_of_ok h]
    rfl
  | error e =>
    rw [bind_of_error h]
    rfl

/-- Where a mark is not written, computations are alike if all parts without the mark
are. -/
theorem bind_congr_of_notMem {m : Mark} {x' : Logged α} {next' : α → Logged β}
    (h : m ∉ (x >>= next).log) (hx : m ∉ x.log → x' = x)
    (hnext : ∀ a, x.result = .ok a → m ∉ (next a).log → next' a = next a) :
    x' >>= next' = x >>= next := by
  cases hres : x.result with
  | error e =>
    rw [bind_of_error hres] at h
    rw [hx h, bind_of_error hres, bind_of_error hres]
  | ok a =>
    rw [bind_of_ok hres, List.mem_append, not_or] at h
    rw [hx h.1, bind_of_ok hres, bind_of_ok hres, hnext a hres h.2]

end Logged

/-- How a walk ends, written down. -/
def conclude (ending : Ending) (r : Region) : Logged (Ending × Region) :=
  ⟨[.ended r.steps], .ok (ending, r)⟩

/-- Walks a region or an arm to its end, and keeps a log. -/
def growLogged (g : Guide) : Nat → Region → Logged (Ending × Region)
  | 0, r => ⟨[.stranded], .ok (.gaveUp (.tooLong g.policy.maxRegionInstrs), r)⟩
  | n + 1, r =>
    if r.stopAt = some r.cursor then conclude .joined r
    else do
      let r ← Logged.quietly r.tick
      Logged.write .counted
      if g.policy.maxRegionInstrs < r.steps then
        return (.gaveUp (.tooLong g.policy.maxRegionInstrs), r)
      else
        match g.program.instr? r.loc with
        | none => Logged.quietly (.error (.program (.regionRanOff r.loc)))
        | some i =>
          match ← Logged.quietly (r.step g i) with
          | .on r => growLogged g n r
          | .ends r => conclude .done r
          | .split cond elsePc join =>
            if g.program.isAllocatingSplit r.loc then
              match ← Logged.quietly (g.hotArm r.loc) with
              | some taken => growLogged g n (r.keepArm cond taken elsePc)
              | none => return (.gaveUp (.complicatedSplit r.loc), r)
            else
              let (thenEnd, a) ← growLogged g n (r.thenArm join)
              match thenEnd with
              | .gaveUp reason => return (.gaveUp reason, a)
              | thenEnd =>
                let (elseEnd, b) ← growLogged g n (r.elseArm a elsePc join)
                match elseEnd with
                | .gaveUp reason => return (.gaveUp reason, b)
                | elseEnd =>
                  match ← Logged.quietly (r.rejoin cond a b thenEnd.isJoined elseEnd.isJoined) with
                  | (true, r) => growLogged g n r
                  | (false, r) => conclude .done r

/-- The log makes no difference. -/
theorem result_growLogged (g : Guide) (n : Nat) (r : Region) :
    (growLogged g n r).result = grow g n r := by
  induction n generalizing r with
  | zero => rfl
  | succ n ih =>
    rw [growLogged, grow]
    split
    · rfl
    · rw [Logged.result_bind]
      refine bind_congr_ok (fun r₁ _ => ?_)
      rw [Logged.result_bind]
      show (ite _ _ _ : Logged (Ending × Region)).result = _
      split
      · rfl
      · cases g.program.instr? r₁.loc with
        | none => rfl
        | some i =>
          dsimp only
          rw [Logged.result_bind]
          refine bind_congr_ok (fun s _ => ?_)
          cases s with
          | on r₂ => exact ih r₂
          | ends r₂ => rfl
          | split cond elsePc join =>
            dsimp only
            split
            · rw [Logged.result_bind]
              refine bind_congr_ok (fun arm _ => ?_)
              cases arm with
              | none => rfl
              | some taken => exact ih _
            · rw [Logged.result_bind, ih]
              refine bind_congr_ok (fun thenWalk _ => ?_)
              obtain ⟨thenEnd, a⟩ := thenWalk
              cases thenEnd with
              | gaveUp reason => rfl
              | done | joined =>
                dsimp only
                rw [Logged.result_bind, ih]
                refine bind_congr_ok (fun elseWalk _ => ?_)
                obtain ⟨elseEnd, b⟩ := elseWalk
                cases elseEnd with
                | gaveUp reason => rfl
                | done | joined =>
                  dsimp only
                  rw [Logged.result_bind]
                  refine bind_congr_ok (fun rejoined _ => ?_)
                  obtain ⟨goes, r₂⟩ := rejoined
                  cases goes with
                  | true => exact ih r₂
                  | false => rfl

/-- A walk that did not run out of its allowance is the same on a larger one. -/
theorem growLogged_succ {g : Guide} {n : Nat} {r : Region}
    (h : .stranded ∉ (growLogged g n r).log) : growLogged g (n + 1) r = growLogged g n r := by
  induction n generalizing r with
  | zero => exact absurd (List.mem_singleton.mpr rfl) h
  | succ n ih =>
    rw [growLogged] at h ⊢
    rw [growLogged]
    split
    · rfl
    · next hapart =>
      rw [if_neg hapart] at h
      refine Logged.bind_congr_of_notMem h (fun _ => rfl) (fun r₁ _ h => ?_)
      refine Logged.bind_congr_of_notMem h (fun _ => rfl) (fun _ _ h => ?_)
      dsimp only at h ⊢
      split
      · rfl
      · next hwithin =>
        rw [if_neg hwithin] at h
        cases hi : g.program.instr? r₁.loc with
        | none => rfl
        | some i =>
          rw [hi] at h
          refine Logged.bind_congr_of_notMem h (fun _ => rfl) (fun s _ h => ?_)
          cases s with
          | on r₂ => exact ih h
          | ends r₂ => rfl
          | split cond elsePc join =>
            dsimp only at h ⊢
            split
            · next halloc =>
              rw [if_pos halloc] at h
              refine Logged.bind_congr_of_notMem h (fun _ => rfl) (fun arm _ h => ?_)
              cases arm with
              | none => rfl
              | some taken => exact ih h
            · next halloc =>
              rw [if_neg halloc] at h
              refine Logged.bind_congr_of_notMem h ih (fun thenWalk _ h => ?_)
              obtain ⟨thenEnd, a⟩ := thenWalk
              cases thenEnd with
              | gaveUp reason => rfl
              | done | joined =>
                refine Logged.bind_congr_of_notMem h ih (fun elseWalk _ h => ?_)
                obtain ⟨elseEnd, b⟩ := elseWalk
                cases elseEnd with
                | gaveUp reason => rfl
                | done | joined =>
                  refine Logged.bind_congr_of_notMem h (fun _ => rfl) (fun rejoined _ h => ?_)
                  obtain ⟨goes, r₂⟩ := rejoined
                  cases goes with
                  | true => exact ih h
                  | false => rfl

-- ============================================================================
-- Counts that are carried
-- ============================================================================

variable {g : Guide} {r r' : Region}

theorem steps_set {reg : Reg} {b : Binding} (h : r.set reg b = .ok r') : r'.steps = r.steps := by
  obtain ⟨-, rfl⟩ := set_eq_ok h
  rfl

theorem steps_residual {dst : Reg} {tainted : Bool} {op : Slot → Op}
    (h : r.residual dst tainted op = .ok r') : r'.steps = r.steps := by
  obtain ⟨⟨slot, r₁⟩, hfresh, h⟩ := bind_eq_ok.mp h
  obtain ⟨next, -, hfresh⟩ := bind_eq_ok.mp hfresh
  cases hfresh
  obtain ⟨-, rfl⟩ := set_eq_ok h
  rfl

theorem steps_compute {i : Instr} (h : r.compute g i = .ok r') : r'.steps = r.steps := by
  cases i with
  | const dst v => exact steps_set h
  | move dst src =>
    obtain ⟨b, -, h⟩ := bind_eq_ok.mp h
    exact steps_set h
  | binary op dst lhs rhs =>
    obtain ⟨a, -, h⟩ := bind_eq_ok.mp h
    obtain ⟨b, -, h⟩ := bind_eq_ok.mp h
    split at h
    · exact steps_set h
    · exact steps_residual h
  | input dst => exact steps_residual h
  | print src =>
    obtain ⟨b, -, h⟩ := bind_eq_ok.mp h
    cases h
    rfl
  | alloc dst fields =>
    obtain ⟨bs, -, h⟩ := bind_eq_ok.mp h
    split at h
    · exact steps_set h
    · exact steps_residual h
  | getField dst obj index =>
    obtain ⟨b, -, h⟩ := bind_eq_ok.mp h
    split at h
    · exact steps_set h
    · exact steps_residual h
  | call dst func args =>
    obtain ⟨bs, -, h⟩ := bind_eq_ok.mp h
    exact steps_residual h
  | jump | branch | mergePoint | promote | ret =>
    cases h
    rfl

/-- Processing an instruction leaves the count to `tick`. -/
theorem steps_step_on {i : Instr} (h : r.step g i = .ok (.on r')) : r'.steps = r.steps := by
  cases treats_of_step h with
  | @compute i r₁ _ hi hc ha =>
    have hsteps : r₁.steps = r.steps := steps_compute hc
    rw [advance_eq_ok ha]
    exact hsteps
  | jump | fold => rfl
  | pass hd ha =>
    rw [advance_eq_ok ha]
    rfl
  | skip ha =>
    rw [advance_eq_ok ha]
    rfl

theorem steps_step_ends {i : Instr} (h : r.step g i = .ok (.ends r')) : r'.steps = r.steps := by
  cases treats_of_step h with
  | arrive | promote | ret => rfl

/-- After a split the walk has the count of its second arm. -/
theorem steps_rejoin {cond : Operand} {a b : Region} {thenJoined elseJoined goes : Bool}
    (h : r.rejoin cond a b thenJoined elseJoined = .ok (goes, r')) (ha : r.steps ≤ a.steps)
    (hb : a.steps ≤ b.steps) : r'.steps = b.steps := by
  have hab : max (max r.steps a.steps) b.steps = b.steps := by omega
  have hrb : max (max r.steps b.steps) b.steps = b.steps := by omega
  have hr : max r.steps b.steps = b.steps := by omega
  unfold rejoin at h
  cases thenJoined with
  | false =>
    cases elseJoined with
    | false =>
      cases h
      exact hr
    | true =>
      cases h
      exact hrb
  | true =>
    cases elseJoined with
    | false =>
      cases h
      exact hab
    | true =>
      obtain ⟨merge, hmerge, h⟩ := bind_eq_ok.mp h
      cases merge with
      | clash a' b' reg conflict =>
        cases h
        exact hab
      | merged thenOps elseOps q =>
        cases h
        obtain ⟨-, -, w, -, -, -, rfl⟩ := mergeArms_eq_merged hmerge
        show max (max r.steps (max a.steps b.steps)) b.steps = b.steps
        omega

-- ============================================================================
-- What the log says
-- ============================================================================

/-- From a count on, every end in a log comes with the count of all instructions by
then. -/
def Exact (spent : Nat) : List Mark → Prop
  | [] => True
  | .counted :: log => Exact (spent + 1) log
  | .ended steps :: log => steps = spent ∧ Exact spent log
  | .stranded :: log => Exact spent log

theorem exact_append {spent : Nat} {log log' : List Mark} :
    Exact spent (log ++ log') ↔ Exact spent log ∧ Exact (spent + log.count .counted) log' := by
  induction log generalizing spent with
  | nil => simp [Exact]
  | cons m log ih =>
    cases m with
    | counted =>
      rw [List.cons_append, Exact, Exact, ih, List.count_cons_self, Nat.add_assoc,
        Nat.add_comm 1]
    | ended steps =>
      rw [List.cons_append, Exact, Exact, ih, and_assoc, List.count_cons_of_ne (by simp)]
    | stranded => rw [List.cons_append, Exact, Exact, ih, List.count_cons_of_ne (by simp)]

/-- The log of a walk that starts with a count: it is exact, its allowance never runs
out, it counts at most one instruction more than the budget has, and it does that only
to give up for this reason. If it does not give up, it has the count of all
instructions. -/
structure Accounts (g : Guide) (spent : Nat) (x : Logged (Ending × Region)) : Prop where
  exact : Exact spent x.log
  unstranded : Mark.stranded ∉ x.log
  within : spent + x.log.count .counted ≤ g.policy.maxRegionInstrs + 1
  steps_eq : ∀ ending r, x.result = .ok (ending, r) → ending.isGaveUp = false →
    r.steps = spent + x.log.count .counted
  tooLong_iff : g.policy.maxRegionInstrs < spent + x.log.count .counted ↔
    ∃ r, x.result = .ok (.gaveUp (.tooLong g.policy.maxRegionInstrs), r)

namespace Accounts

variable {spent : Nat}

/-- A walk that ends with the count it started with. -/
theorem conclude {ending : Ending} (hend : ending.isGaveUp = false) (hr : r.steps = spent)
    (hspent : spent ≤ g.policy.maxRegionInstrs) : Accounts g spent (r.conclude ending) := by
  have hcount : (r.conclude ending).log.count .counted = 0 := rfl
  refine ⟨⟨hr, trivial⟩, by simp [Region.conclude], by omega, ?_, ?_⟩
  · intro ending' r' h _
    cases h
    omega
  · rw [hcount]
    constructor
    · intro h
      omega
    · rintro ⟨r', h⟩
      cases h
      cases hend

/-- A walk that gives up, because it is past its budget or for another reason. -/
theorem giveUp {reason : GiveUp} (hspent : spent ≤ g.policy.maxRegionInstrs + 1)
    (hreason : g.policy.maxRegionInstrs < spent ↔ reason = .tooLong g.policy.maxRegionInstrs)
    (r : Region) : Accounts g spent (pure (.gaveUp reason, r)) := by
  have hcount : (pure (Ending.gaveUp reason, r) : Logged _).log.count .counted = 0 := rfl
  refine ⟨trivial, List.not_mem_nil, by omega, ?_, ?_⟩
  · intro ending r' h hend
    cases h
    cases hend
  · rw [hcount, Nat.add_zero, hreason]
    constructor
    · rintro rfl
      exact ⟨r, rfl⟩
    · rintro ⟨r', h⟩
      cases h
      rfl

/-- An instruction is counted, and then the rest. -/
theorem counted {x : Logged (Ending × Region)} (h : Accounts g (spent + 1) x) :
    Accounts g spent (Logged.write .counted >>= fun _ => x) := by
  have hcount : (Mark.counted :: x.log).count .counted = x.log.count .counted + 1 :=
    List.count_cons_self
  have hadd : spent + (x.log.count .counted + 1) = spent + 1 + x.log.count .counted := by omega
  rw [Logged.bind_of_ok rfl]
  refine ⟨h.exact, ?_, ?_, ?_, ?_⟩
  · simpa [Logged.write] using h.unstranded
  · show spent + (Mark.counted :: x.log).count .counted ≤ _
    rw [hcount, hadd]
    exact h.within
  · intro ending r hr hend
    show r.steps = spent + (Mark.counted :: x.log).count .counted
    rw [hcount, hadd]
    exact h.steps_eq ending r hr hend
  · show _ < spent + (Mark.counted :: x.log).count .counted ↔ _
    rw [hcount, hadd]
    exact h.tooLong_iff

/-- A walk that fails. -/
theorem fail (hspent : spent ≤ g.policy.maxRegionInstrs) (fault : Fault) :
    Accounts g spent (Logged.quietly (.error fault)) := by
  have hcount : (Logged.quietly (α := Ending × Region) (.error fault)).log.count .counted = 0 := rfl
  refine ⟨trivial, List.not_mem_nil, by omega, ?_, ?_⟩
  · intro ending r hr
    cases hr
  · rw [hcount]
    constructor
    · intro hlt
      omega
    · rintro ⟨r, hr⟩
      cases hr

/-- A part of the walk that counts nothing. It may fail. -/
theorem quietly {α : Type} {e : Except Fault α} {next : α → Logged (Ending × Region)}
    (hspent : spent ≤ g.policy.maxRegionInstrs)
    (h : ∀ a, e = .ok a → Accounts g spent (next a)) :
    Accounts g spent (Logged.quietly e >>= next) := by
  cases e with
  | ok a =>
    rw [Logged.bind_of_ok rfl]
    exact h a rfl
  | error fault =>
    rw [Logged.bind_of_error rfl]
    exact fail hspent fault

/-- A walk, and then what follows it. What follows starts with the count that the walk
ended with; if the walk gives up, nothing does. -/
theorem andThen {x : Logged (Ending × Region)} {next : Ending × Region → Logged (Ending × Region)}
    (hx : Accounts g spent x)
    (hgave : ∀ reason a, next (.gaveUp reason, a) = pure (.gaveUp reason, a))
    (hnext : ∀ ending a, x.result = .ok (ending, a) → ending.isGaveUp = false →
      spent ≤ a.steps → a.steps ≤ g.policy.maxRegionInstrs →
      Accounts g a.steps (next (ending, a))) :
    Accounts g spent (x >>= next) := by
  cases hres : x.result with
  | error fault =>
    rw [Logged.bind_of_error hres]
    refine ⟨hx.exact, hx.unstranded, hx.within, ?_, ?_⟩
    · intro ending r hr
      cases hr
    · refine hx.tooLong_iff.trans ?_
      rw [hres]
  | ok walk =>
    obtain ⟨ending, a⟩ := walk
    rw [Logged.bind_of_ok hres]
    cases hend : ending.isGaveUp with
    | true =>
      cases ending with
      | done | joined => cases hend
      | gaveUp reason =>
        rw [hgave]
        have hlog : x.log ++ (pure (Ending.gaveUp reason, a) : Logged _).log = x.log :=
          List.append_nil _
        rw [hlog]
        refine ⟨hx.exact, hx.unstranded, hx.within, ?_, ?_⟩
        · intro ending r hr hend
          exact hx.steps_eq ending r (hres.trans hr) hend
        · refine hx.tooLong_iff.trans ?_
          rw [hres]
          rfl
    | false =>
      have hsteps := hx.steps_eq ending a hres hend
      have hwithin : a.steps ≤ g.policy.maxRegionInstrs := by
        refine Nat.le_of_not_lt (fun hlt => ?_)
        rw [hsteps] at hlt
        obtain ⟨r, hr⟩ := hx.tooLong_iff.mp hlt
        rw [hres] at hr
        cases hr
        cases hend
      have hy := hnext ending a hres hend (by omega) hwithin
      have hcount : spent + (x.log ++ (next (ending, a)).log).count .counted =
          a.steps + (next (ending, a)).log.count .counted := by
        rw [List.count_append]
        omega
      refine ⟨?_, ?_, ?_, ?_, ?_⟩
      · rw [exact_append, ← hsteps]
        exact ⟨hx.exact, hy.exact⟩
      · rw [List.mem_append, not_or]
        exact ⟨hx.unstranded, hy.unstranded⟩
      · rw [hcount]
        exact hy.within
      · intro ending' r hr hend'
        rw [hcount]
        exact hy.steps_eq ending' r hr hend'
      · rw [hcount]
        exact hy.tooLong_iff

end Accounts

/-- The log of a walk on an allowance that is larger than what is left of its budget. -/
theorem accounts_growLogged {n : Nat} (hr : r.steps ≤ g.policy.maxRegionInstrs)
    (hn : g.policy.maxRegionInstrs + 2 ≤ n + r.steps) : Accounts g r.steps (growLogged g n r) := by
  -- on the allowance: where the walk goes on, an instruction more has been counted
  induction n generalizing r with
  | zero => omega
  | succ n ih =>
    rw [growLogged]
    split
    · exact .conclude rfl rfl hr
    · refine .quietly hr (fun r₁ htick => .counted ?_)
      have hsteps : r₁.steps = r.steps + 1 := by rw [tick_eq_ok htick]
      rw [← hsteps]
      split
      · next hover => exact .giveUp (by omega) ⟨fun _ => rfl, fun _ => hover⟩ r₁
      · next hwithin =>
        have hr₁ : r₁.steps ≤ g.policy.maxRegionInstrs := Nat.le_of_not_lt hwithin
        have hgoes : ∀ r₂ : Region, r₁.steps ≤ r₂.steps → r₂.steps ≤ g.policy.maxRegionInstrs →
            Accounts g r₂.steps (growLogged g n r₂) :=
          fun r₂ hle hr₂ => ih hr₂ (by omega)
        split
        · exact .fail hr₁ _
        · next i hi =>
          refine .quietly hr₁ (fun s hs => ?_)
          cases s with
          | on r₂ =>
            have hr₂ := steps_step_on hs
            rw [← hr₂]
            exact hgoes r₂ (by omega) (by omega)
          | ends r₂ => exact .conclude rfl (steps_step_ends hs) hr₁
          | split cond elsePc join =>
            dsimp only
            split
            · refine .quietly hr₁ (fun arm _ => ?_)
              cases arm with
              | some taken => exact hgoes (r₁.keepArm cond taken elsePc) (Nat.le_refl _) hr₁
              | none =>
                refine .giveUp (by omega) ⟨fun hlt => ?_, fun h => by cases h⟩ r₁
                omega
            · refine .andThen (hgoes (r₁.thenArm join) (Nat.le_refl _) hr₁) (fun _ _ => rfl) ?_
              intro thenEnd a _ hthen hle ha
              have helse : (r₁.elseArm a elsePc join).steps = a.steps := Nat.max_eq_right hle
              cases thenEnd with
              | gaveUp reason => cases hthen
              | done | joined =>
                dsimp only
                rw [← helse]
                refine .andThen (hgoes _ (by omega) (by omega)) (fun _ _ => rfl) ?_
                intro elseEnd b _ helseEnd hle' hb
                cases elseEnd with
                | gaveUp reason => cases helseEnd
                | done | joined =>
                  refine .quietly hb (fun rejoined hrejoin => ?_)
                  obtain ⟨goes, r₂⟩ := rejoined
                  have hr₂ : r₂.steps = b.steps := steps_rejoin hrejoin hle (by omega)
                  cases goes with
                  | true =>
                    rw [← hr₂]
                    exact hgoes r₂ (by omega) (by omega)
                  | false => exact .conclude rfl hr₂ hb

-- ============================================================================
-- Attempts
-- ============================================================================

/-- A whole attempt to specialize a region, with its log. -/
def attempt (g : Guide) (r : Region) : Logged (Ending × Region) :=
  growLogged g (g.policy.maxRegionInstrs + 2) r

theorem specialize_eq_fallback {reason : GiveUp} :
    r.specialize g = .ok (.fallback reason) ↔
      ∃ r', (attempt g r).result = .ok (.gaveUp reason, r') := by
  unfold specialize attempt
  rw [result_growLogged, bind_eq_ok]
  constructor
  · rintro ⟨⟨ending, r'⟩, hgrow, h⟩
    cases ending with
    | gaveUp reason =>
      cases h
      exact ⟨r', hgrow⟩
    | joined => cases h
    | done =>
      dsimp only at h
      split at h <;> cases h
  · rintro ⟨r', hgrow⟩
    exact ⟨_, hgrow, rfl⟩

theorem accounts_attempt {f : Frame} (hr : Opens f r) : Accounts g 0 (attempt g r) := by
  obtain ⟨loc, origin, rfl⟩ := hr.eq_entering
  exact accounts_growLogged (r := entering loc f origin) (Nat.zero_le _) (Nat.le_refl _)

theorem growLogged_eq_attempt {f : Frame} {n : Nat} (hr : Opens f r)
    (hn : g.policy.maxRegionInstrs + 2 ≤ n) : growLogged g n r = attempt g r := by
  induction hn with
  | refl => rfl
  | step hn ih =>
    rw [growLogged_succ, ih]
    rw [ih]
    exact (accounts_attempt hr).unstranded

/-- An attempt has one budget for all of its walks and arms, and counts exactly. It
comes to an end whatever the allowance, if only it is larger than the budget. It counts
at most one instruction more than the budget has, and gives up for this reason exactly if it
does. A walk or an arm that ends has the count of all instructions of the attempt so
far, and the region at the end that of all of them. -/
theorem budget_is_shared {f : Frame} (hr : Opens f r) :
    ((attempt g r).result = grow g (g.policy.maxRegionInstrs + 2) r ∧
      (∀ n, g.policy.maxRegionInstrs + 2 ≤ n → growLogged g n r = attempt g r) ∧
      .stranded ∉ (attempt g r).log) ∧
    (attempt g r).log.count .counted ≤ g.policy.maxRegionInstrs + 1 ∧
    (g.policy.maxRegionInstrs < (attempt g r).log.count .counted ↔
      r.specialize g = .ok (.fallback (.tooLong g.policy.maxRegionInstrs))) ∧
    (∀ before steps after, (attempt g r).log = before ++ .ended steps :: after →
      steps = before.count .counted) ∧
    ∀ ending r', (attempt g r).result = .ok (ending, r') → ending.isGaveUp = false →
      r'.steps = (attempt g r).log.count .counted := by
  have haccounts : Accounts g 0 (attempt g r) := accounts_attempt hr
  have hwithin := haccounts.within
  have htooLong := haccounts.tooLong_iff
  rw [Nat.zero_add] at hwithin htooLong
  refine ⟨⟨result_growLogged g _ r, fun n hn => growLogged_eq_attempt hr hn,
    haccounts.unstranded⟩, hwithin, ?_, ?_, ?_⟩
  · rw [htooLong, specialize_eq_fallback]
  · intro before steps after hlog
    have hexact := haccounts.exact
    rw [hlog, exact_append, Nat.zero_add] at hexact
    exact hexact.2.1
  · intro ending r' hres hend
    rw [haccounts.steps_eq ending r' hres hend, Nat.zero_add]

/-- The grading loop has a split in an arm of another one. The four arms come to their
ends with 5, 6, 7 and 8 instructions, and the walk with 11. A budget of 7 is spent by the
two arms inside, and the other arm is where the attempt ends. -/
theorem budget_is_shared_grading :
    (attempt ⟨gradingProgram, { maxRegionInstrs := 11 }, {}, {}⟩
        (generic ⟨0, 1⟩ (Frame.blank 2))).log =
      .replicate 5 .counted ++ [.ended 5, .counted, .ended 6, .counted, .ended 7, .counted,
        .ended 8] ++ .replicate 3 .counted ++ [.ended 11] ∧
    (attempt ⟨gradingProgram, { maxRegionInstrs := 7 }, {}, {}⟩
        (generic ⟨0, 1⟩ (Frame.blank 2))).log.count .counted = 8 ∧
    (generic ⟨0, 1⟩ (Frame.blank 2)).specialize
        ⟨gradingProgram, { maxRegionInstrs := 7 }, {}, {}⟩ = .ok (.fallback (.tooLong 7)) := by
  have hr : Opens (Frame.blank 2) (generic ⟨0, 1⟩ (Frame.blank 2)) := .generic ⟨0, 1⟩
  have hover : (attempt ⟨gradingProgram, { maxRegionInstrs := 7 }, {}, {}⟩
      (generic ⟨0, 1⟩ (Frame.blank 2))).log.count .counted = 8 := by decide +kernel
  refine ⟨by decide +kernel, hover, (budget_is_shared hr).2.2.1.mp ?_⟩
  rw [hover]
  decide

end Region

end HotPath
