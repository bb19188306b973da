/-
  HotPath.Proofs.Engine.Memo

  The places that an engine knows to be empty. Such a place is not compiled again, however
  hot it is. It is in this memo because the last attempt at it found nothing
  (`Worker.Journal.contains_eq`), and the memo is right about an arrival that comes with the
  same taint as that attempt, as long as the promotion site at which the attempt ended, if it
  ended at one, has not turned generic since (`Worker.Journal.memo_holds`).

  In general it is not. The places of promotion sites do not tell taints apart, and no
  place is ever forgotten when a site turns generic: `Worker.Journal.memo_goes_stale` has an
  arrival of either kind that is not compiled although there is something to compile.
-/
import HotPath.Proofs.Engine.Attempts

namespace HotPath

-- ============================================================================
-- Places
-- ============================================================================

/-- Frames of one size and taint open the same region, if they agree on the untainted
registers that it fixes. -/
theorem Region.entering_eq {loc : Location} {f f₀ : Frame} {origin : Reg → Option Origin}
    (hsize : f.size = f₀.size) (hmask : f.mask = f₀.mask)
    (hget : ∀ i, (origin i).isSome = true → f₀.isTainted i = false → f.get i = f₀.get i) :
    entering loc f origin = entering loc f₀ origin := by
  have hregs : entryRegs origin 0 f.cells = entryRegs origin 0 f₀.cells := by
    refine List.ext_getElem? (fun i => ?_)
    rw [getElem?_entryRegs, getElem?_entryRegs, Nat.zero_add]
    have htaint := Frame.isTainted_eq_of_mask hsize hmask i
    have hget := hget i
    have hlt : i < f.cells.length ↔ i < f₀.cells.length := by
      show i < f.size ↔ i < f₀.size
      rw [hsize]
    unfold Frame.isTainted at htaint hget
    unfold Frame.get at hget
    cases hc₀ : f₀.cells[i]? with
    | none =>
      have hle := List.getElem?_eq_none_iff.mp hc₀
      rw [List.getElem?_eq_none (Nat.le_of_not_lt (fun h => Nat.not_lt.mpr hle (hlt.mp h)))]
    | some c₀ =>
      have hi := hlt.mpr (List.getElem?_eq_some_iff.mp hc₀).1
      rw [List.getElem?_eq_getElem hi, hc₀] at htaint hget
      rw [List.getElem?_eq_getElem hi]
      simp only [Option.map_some, Option.some.injEq] at htaint hget ⊢
      unfold entryBinding
      rw [htaint]
      cases ht : c₀.tainted with
      | true => rfl
      | false =>
        cases ho : origin i with
        | none => rfl
        | some o =>
          rw [hget (ho ▸ rfl) ht]
  unfold entering
  rw [hregs, hsize]

/-- Regions that open after an address, with some registers fixed. -/
theorem Region.opening_eq (fixes : Reg → Prop) [DecidablePred fixes] {next? : Option Location}
    {origin : Origin} {f f₀ : Frame} {r r₀ : Region}
    (hr : (inWidth next? >>= fun next => .ok (entering next f
      (fun i => if fixes i then some origin else none))) = .ok r)
    (hr₀ : (inWidth next? >>= fun next => .ok (entering next f₀
      (fun i => if fixes i then some origin else none))) = .ok r₀)
    (hsize : f.size = f₀.size) (hmask : f.mask = f₀.mask)
    (hget : ∀ i, fixes i → f₀.isTainted i = false → f.get i = f₀.get i) : r = r₀ := by
  obtain ⟨next, hnext, hr⟩ := bind_eq_ok.mp hr
  obtain ⟨next₀, hnext₀, hr₀⟩ := bind_eq_ok.mp hr₀
  cases hr
  cases hr₀
  cases hnext.symm.trans hnext₀
  refine entering_eq hsize hmask (fun i ho => hget i ?_)
  split at ho
  · assumption
  · cases ho

/-- The region of a place, for a frame. At a promotion site it is for a register. -/
inductive UnitEntry.Opens (p : Program) (f : Frame) : UnitEntry → Option Reg → Region → Prop where
  | mergePoint {loc : Location} {k : MergeKey} {r : Region} (hk : k = .ofFrame loc (p.greens loc) f)
    (hr : Region.atMergePoint loc (p.greens loc) f = .ok r) : Opens p f (.mergePoint k) none r
  | promotion {site : Location} {reg : Reg} {v : Value} {r : Region} (hv : v = f.get reg)
    (hr : Region.atPromotion site reg f = .ok r) : Opens p f (.promotion site v) (some reg) r
  | generic {site : Location} : Opens p f (.generic site) none (.generic site.after f)

namespace UnitEntry.Opens

variable {p : Program} {f f₀ : Frame} {entry : UnitEntry} {reg reg₀ : Option Reg} {r r₀ : Region}

/-- A merge point instance tells taints apart. -/
theorem mask_eq {k : MergeKey} (h : Opens p f (.mergePoint k) reg r)
    (h₀ : Opens p f₀ (.mergePoint k) reg₀ r₀) : f.mask = f₀.mask := by
  cases h with
  | mergePoint hk hr =>
    cases h₀ with
    | mergePoint hk₀ hr₀ => exact congrArg MergeKey.taint (hk.symm.trans hk₀)

theorem reg_eq {k : MergeKey} (h : Opens p f (.mergePoint k) reg r) : reg = none := by
  cases h with
  | mergePoint => rfl

/-- Apart from the register, the place, the size and the taint of a frame are all that
its region depends on. -/
theorem region_eq (h : Opens p f entry reg r) (h₀ : Opens p f₀ entry reg₀ r₀)
    (hsize : f.size = f₀.size) (hmask : f.mask = f₀.mask) (hreg : reg = reg₀) : r = r₀ := by
  have htaint := Frame.isTainted_eq_of_mask hsize hmask
  cases h with
  | @mergePoint loc k r hk hr =>
    cases h₀ with
    | @mergePoint loc₀ k r₀ hk₀ hr₀ =>
      rw [hk] at hk₀
      have hloc : loc = loc₀ := congrArg MergeKey.loc hk₀
      subst hloc
      have hgreens := congrArg MergeKey.greens hk₀
      refine Region.opening_eq (· ∈ p.greens loc) hr hr₀ hsize hmask (fun i hmem hi => ?_)
      have hgreen : MergeKey.green f i = MergeKey.green f₀ i :=
        List.map_inj_left.mp hgreens i hmem
      unfold MergeKey.green at hgreen
      rw [htaint i, hi] at hgreen
      exact hgreen
  | @promotion site reg v r hv hr =>
    cases h₀ with
    | @promotion site reg₀ v r₀ hv₀ hr₀ =>
      cases hreg
      refine Region.opening_eq (· = reg) hr hr₀ hsize hmask (fun i hi _ => ?_)
      rw [hi]
      exact hv.symm.trans hv₀
  | generic =>
    cases h₀ with
    | generic => exact Region.entering_eq hsize hmask (fun i ho _ => by cases ho)

end UnitEntry.Opens

-- ============================================================================
-- Arrivals that are passed over
-- ============================================================================

theorem eq_ok_of_toOption {ε α : Type} {x : Except ε α} {a : α} (h : x.toOption = some a) :
    x = .ok a := by
  cases x with
  | error e => cases h
  | ok a' =>
    cases h
    rfl

namespace Books

variable {p : Program} {pol : Policy} {b : Books} {a : Arrival} {t : Attempt}

/-- An attempt that is due is for the region of its place, goes by the program and the policy,
and comes after the arrival was noted. -/
theorem due?_eq_some (h : b.due? p pol a = some t) :
    t.entry.Opens p t.frame t.reg t.region ∧ t.guide.program = p ∧ t.guide.policy = pol ∧
      (b.store.Orderly → b.store.Grows t.guide.store) := by
  unfold due? at h
  split at h
  · next loc f =>
    dsimp only at h
    split at h
    · obtain ⟨r, hr, rfl⟩ := Option.map_eq_some_iff.mp h
      exact ⟨.mergePoint rfl (eq_ok_of_toOption hr), rfl, rfl, fun _ => .refl _⟩
    · cases h
  · next site reg f =>
    split at h
    · have hnoted : b.store.Orderly → b.store.Grows (b.noted site (f.get reg)).store :=
        fun hs => (hs.noted site (f.get reg)).grows
      unfold dueFor? at h
      split at h
      · obtain ⟨r, hr, rfl⟩ := Option.map_eq_some_iff.mp h
        exact ⟨.promotion rfl (eq_ok_of_toOption hr), rfl, rfl, hnoted⟩
      · obtain ⟨next, hnext, rfl⟩ := Option.map_eq_some_iff.mp h
        cases next?_eq_after (eq_ok_of_toOption hnext)
        exact ⟨.generic, rfl, rfl, hnoted⟩
      · cases h
      · cases h
    · cases h

/-- An arrival calls for an attempt, which is not made because the place is in the memo. -/
structure Skips (p : Program) (pol : Policy) (b : Books) (a : Arrival) (t : Attempt) : Prop where
  due : b.due? p pol a = some t
  known : b.empty.contains t.entry = true

end Books

namespace Worker.Journal

variable {p : Program} {pol : Policy} {tries : List Attempt} {w : Worker} {s : UnitStore}

/-- An arrival that is not compiled because its place is in the memo: the last attempt at the
place found nothing, and an attempt that goes by the books as they are now would find nothing
again, if it is for a frame of the same size and taint and for the same register, and the
promotion site at which that attempt ended, if it ended at one, is still not generic. A merge
point instance always comes with the same taint. -/
theorem memo_holds (h : Journal p pol tries w s) {a : Arrival} {t : Attempt}
    (hskips : (w.books s).Skips p pol a t) :
    ∃ t₀, Attempt.lastAt? tries t.entry = some t₀ ∧ t₀.isEmpty = true ∧
      t₀.guide.store.Grows t.guide.store ∧
      (∀ site ∈ t₀.stop?, t₀.guide.store.isGeneric site = false ∧
        ∃ reg, p.instr? site = some (.promote reg)) ∧
      (∀ k, t.entry = .mergePoint k → t.frame.mask = t₀.frame.mask ∧ t.reg = t₀.reg) ∧
      (t.frame.size = t₀.frame.size → t.frame.mask = t₀.frame.mask → t.reg = t₀.reg →
        (∀ site ∈ t₀.stop?, t.guide.store.isGeneric site = false) →
        t.region.specialize t.guide = .ok .empty) := by
  have hknown := hskips.known
  rw [h.contains_eq] at hknown
  obtain ⟨t₀, hlast, hempty⟩ := (Option.any_eq_true _ _).mp hknown
  obtain ⟨hmem, hentry⟩ := Attempt.lastAt?_eq_some hlast
  obtain ⟨⟨b₀, a₀, hdue₀⟩, hstore₀⟩ := h.recorded hmem
  obtain ⟨hopens₀, hprogram₀, hpolicy₀, -⟩ := Books.due?_eq_some hdue₀
  obtain ⟨hopens, hprogram, hpolicy, hnoted⟩ := Books.due?_eq_some hskips.due
  rw [hentry] at hopens₀
  obtain ⟨log, hdiary⟩ := h.diary
  have hgrows : t₀.guide.store.Grows t.guide.store :=
    (hstore₀ hempty).trans (hnoted hdiary.orderly.1)
  have hprecedes : t₀.guide.Precedes t.guide :=
    ⟨hprogram.trans hprogram₀.symm, hpolicy.trans hpolicy₀.symm, hgrows.generic⟩
  obtain ⟨hstop, hagain⟩ := Region.specialize_empty_again (Attempt.isEmpty_iff.mp hempty)
  refine ⟨t₀, hlast, hempty, hgrows, fun site hsite => ?_, fun k hk => ?_, ?_⟩
  · exact hprogram₀ ▸ hstop site hsite
  · rw [hk] at hopens hopens₀
    exact ⟨hopens.mask_eq hopens₀, hopens.reg_eq.trans hopens₀.reg_eq.symm⟩
  · intro hsize hmask hreg hsites
    rw [hopens.region_eq hopens₀ hsize hmask hreg]
    exact hagain _ hprecedes hsites

end Worker.Journal

-- ============================================================================
-- Two ways to go stale
-- ============================================================================

/-- Whether there is something to execute. -/
def Attempt.isCommitted (t : Attempt) : Bool :=
  match t.region.specialize t.guide with
  | .ok (.committed _) => true
  | _ => false

theorem Attempt.specialize_of_isCommitted {t : Attempt} (h : t.isCommitted = true) :
    ∃ trace, t.region.specialize t.guide = .ok (.committed trace) := by
  unfold isCommitted at h
  split at h
  · next trace htrace => exact ⟨trace, htrace⟩
  · cases h

/-- A place that is due and in the memo, with the last attempt at it. -/
theorem Books.skips_of_any {p : Program} {pol : Policy} {b : Books} {a : Arrival}
    {tries : List Attempt} {q : Attempt → Attempt → Prop} [∀ t t₀, Decidable (q t t₀)]
    (h : (b.due? p pol a).any (fun t => b.empty.contains t.entry &&
      (Attempt.lastAt? tries t.entry).any (fun t₀ => q t t₀)) = true) :
    ∃ t t₀, b.Skips p pol a t ∧ Attempt.lastAt? tries t.entry = some t₀ ∧ q t t₀ := by
  obtain ⟨t, hdue, ht⟩ := (Option.any_eq_true _ _).mp h
  obtain ⟨hknown, ht⟩ := (Bool.and_eq_true _ _).mp ht
  obtain ⟨t₀, hlast, ht₀⟩ := (Option.any_eq_true _ _).mp ht
  exact ⟨t, t₀, ⟨hdue, hknown⟩, hlast, of_decide_eq_true ht₀⟩

namespace Worker.Journal

/-- Promotes one register, and then the other. -/
def relay : Function :=
  { name := "relay", registers := 2, code := #[.promote 0, .promote 1, .print 1, .ret 1] }

/-- The function as a program. -/
def relayProgram : Program :=
  { functions := #[relay], entry := 0, facts := .ofFunctions #[relay], faultless := by decide,
    facts_eq := rfl }

/-- Compiles promotions at once. -/
def relayPolicy : Policy := { promotionThreshold := 1 }

/-- A frame whose second register has some value, which may come from input. -/
def relayFrame (v : Int64) (tainted : Bool) : Frame := ⟨[⟨.int 7, false⟩, ⟨.int v, tainted⟩]⟩

/-- A report of the first register at the first site. -/
def relayArrival (v : Int64) (tainted : Bool) : Arrival :=
  .promotion ⟨0, 0⟩ 0 (relayFrame v tainted)

/-- The engine after such a report, and after its call has ended. -/
def relayRun : Option (List Attempt × Worker × UnitStore) :=
  follow [.call (.arrival (relayArrival 5 false)) {}, .turn 9, .turn 9]
    ([], idle (.ofValid relayProgram relayPolicy rfl), .ofThreshold 4)

theorem relay_journal {x : List Attempt × Worker × UnitStore} (hx : relayRun = some x) :
    Journal relayProgram relayPolicy x.1 x.2.1 x.2.2 :=
  after_acts (.new (Engine.isNew_ofValid rfl)) hx

/-- When the register is reported again with another value in the second one, the memo says
that there is nothing to compile. The attempt that it goes back to was for a frame of the same
taint and ended at the second site, which is not generic; so there is nothing to compile. -/
theorem memo_holds_relay : ∃ tries w s t t₀,
    Journal relayProgram relayPolicy tries w s ∧
      (w.books s).Skips relayProgram relayPolicy (relayArrival 6 false) t ∧
      Attempt.lastAt? tries t.entry = some t₀ ∧ t.frame = relayFrame 6 false ∧
      t₀.frame = relayFrame 5 false ∧ t.reg = some 0 ∧ t₀.reg = some 0 ∧
      t₀.stop? = some ⟨0, 1⟩ ∧ t.guide.store.isGeneric ⟨0, 1⟩ = false ∧
      t.region.specialize t.guide = .ok .empty := by
  have hrun : relayRun.any (fun x =>
      ((x.2.1.books x.2.2).due? relayProgram relayPolicy (relayArrival 6 false)).any (fun t =>
        (x.2.1.books x.2.2).empty.contains t.entry &&
        (Attempt.lastAt? x.1 t.entry).any (fun t₀ =>
          (t.frame = relayFrame 6 false ∧ t₀.frame = relayFrame 5 false) ∧
          (t.reg = some 0 ∧ t₀.reg = some 0) ∧
          t₀.stop? = some ⟨0, 1⟩ ∧ t.guide.store.isGeneric ⟨0, 1⟩ = false))) = true := by
    decide +kernel
  obtain ⟨x, hx, hrun⟩ := (Option.any_eq_true _ _).mp hrun
  obtain ⟨t, t₀, hskips, hlast, ⟨hframe, hframe₀⟩, ⟨hreg, hreg₀⟩, hstop, hgeneric⟩ :=
    Books.skips_of_any hrun
  have hjournal := relay_journal hx
  obtain ⟨t₁, hlast₁, -, -, -, -, hagain⟩ := memo_holds hjournal hskips
  cases hlast₁.symm.trans hlast
  have hempty : t.region.specialize t.guide = .ok .empty := by
    refine hagain ?_ ?_ (hreg.trans hreg₀.symm) (fun site hsite => ?_)
    · rw [hframe, hframe₀]
      rfl
    · rw [hframe, hframe₀]
      decide
    · cases hsite.symm.trans hstop
      exact hgeneric
  exact ⟨x.1, x.2.1, x.2.2, t, t₀, hjournal, hskips, hlast, hframe, hframe₀, hreg, hreg₀, hstop,
    hgeneric, hempty⟩

/-- A merge point, and then a promotion. -/
def gate : Function :=
  { name := "gate", registers := 1, code := #[.mergePoint [], .promote 0, .print 0, .ret 0] }

/-- The function as a program. -/
def gateProgram : Program :=
  { functions := #[gate], entry := 0, facts := .ofFunctions #[gate], faultless := by decide,
    facts_eq := rfl }

/-- Compiles merge points at once, and gives a site room for one value. -/
def gatePolicy : Policy := { mergePointThreshold := 1, megamorphicThreshold := 1 }

/-- A report of the merge point, with some value in the register. -/
def gateArrival (v : Int64) : Arrival := .mergePoint ⟨0, 0⟩ ⟨[⟨.int v, false⟩]⟩

/-- The engine after two arrivals. The first finds that the region ends at the site; the
second brings another value to the site, which turns generic. -/
def gateRun : Option (List Attempt × Worker × UnitStore) :=
  follow [.call (.arrival (gateArrival 1)) {}, .turn 9, .turn 9, .turn 9,
      .call (.arrival (gateArrival 2)) {}, .turn 9, .turn 9, .turn 9]
    ([], idle (.ofValid gateProgram gatePolicy rfl), .ofThreshold 1)

theorem gate_journal {x : List Attempt × Worker × UnitStore} (hx : gateRun = some x) :
    Journal gateProgram gatePolicy x.1 x.2.1 x.2.2 :=
  after_acts (.new (Engine.isNew_ofValid rfl)) hx


/-- The memo is wrong about a value that comes under another taint than the last attempt at
its place, and about a merge point where that attempt ended at a site that is generic now:
there is something to compile. -/
theorem memo_goes_stale :
    (∃ tries w s t t₀ trace, Journal relayProgram relayPolicy tries w s ∧
      (w.books s).Skips relayProgram relayPolicy (relayArrival 5 true) t ∧
      Attempt.lastAt? tries t.entry = some t₀ ∧ t.frame.mask ≠ t₀.frame.mask ∧
      t.region.specialize t.guide = .ok (.committed trace)) ∧
    ∃ tries w s t t₀ trace, Journal gateProgram gatePolicy tries w s ∧
      (w.books s).Skips gateProgram gatePolicy (gateArrival 3) t ∧
      Attempt.lastAt? tries t.entry = some t₀ ∧ t₀.stop? = some ⟨0, 1⟩ ∧
      t.guide.store.isGeneric ⟨0, 1⟩ = true ∧
      t.region.specialize t.guide = .ok (.committed trace) := by
  constructor
  · have hrun : relayRun.any (fun x =>
        ((x.2.1.books x.2.2).due? relayProgram relayPolicy (relayArrival 5 true)).any (fun t =>
          (x.2.1.books x.2.2).empty.contains t.entry &&
          (Attempt.lastAt? x.1 t.entry).any (fun t₀ =>
            t.frame.mask ≠ t₀.frame.mask ∧ t.isCommitted = true))) = true := by
      decide +kernel
    obtain ⟨x, hx, hrun⟩ := (Option.any_eq_true _ _).mp hrun
    obtain ⟨t, t₀, hskips, hlast, hmask, hcommitted⟩ := Books.skips_of_any hrun
    obtain ⟨trace, htrace⟩ := t.specialize_of_isCommitted hcommitted
    exact ⟨x.1, x.2.1, x.2.2, t, t₀, trace, relay_journal hx, hskips, hlast, hmask, htrace⟩
  · have hrun : gateRun.any (fun x =>
        ((x.2.1.books x.2.2).due? gateProgram gatePolicy (gateArrival 3)).any (fun t =>
          (x.2.1.books x.2.2).empty.contains t.entry &&
          (Attempt.lastAt? x.1 t.entry).any (fun t₀ =>
            t₀.stop? = some ⟨0, 1⟩ ∧ t.guide.store.isGeneric ⟨0, 1⟩ = true ∧
              t.isCommitted = true))) = true := by
      decide +kernel
    obtain ⟨x, hx, hrun⟩ := (Option.any_eq_true _ _).mp hrun
    obtain ⟨t, t₀, hskips, hlast, hstop, hgeneric, hcommitted⟩ := Books.skips_of_any hrun
    obtain ⟨trace, htrace⟩ := t.specialize_of_isCommitted hcommitted
    exact ⟨x.1, x.2.1, x.2.2, t, t₀, trace, gate_journal hx, hskips, hlast, hstop, hgeneric,
      htrace⟩

end Worker.Journal

end HotPath
