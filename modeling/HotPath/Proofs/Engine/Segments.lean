/-
  HotPath.Proofs.Engine.Segments

  Segments cannot be observed. A run in segments stops wherever execution may change
  hands and starts again after each such place; `Machine.relay` is that run. A call
  runs its frame without a stop. Both go the same way: what a segment does is part of
  the way without stops, and the merge point between two segments does nothing
  (`Machine.resume_onWay`). So a program run in segments and its entry function
  called attain the same (`Machine.segments_are_invisible`), wherever the places are
  at which execution may change hands.
-/
import HotPath.Proofs.Engine.Equivalence

namespace HotPath

namespace Machine

/-- Runs segment after segment: where one arrives at a merge point, the next one
starts after it. The allowance is for the instructions of each segment, and so many
segments are run at most. -/
def relay (m : Machine) (fuel : Nat) : (segments : Nat) → Spot → Outcome Console Value
  | 0, _ => .starved
  | n + 1, s =>
    match m.resume fuel s.loc s.frame s.io with
    | .done e t =>
      if e.kind = .mergePoint then
        match e.loc.next? with
        | some next => m.relay fuel n ⟨next, e.frame, t.io⟩
        | none => .failed .overflow t.io
      else .ofResult e.result t.io
    | .failed fault t => .failed fault t.io
    | .starved => .starved

variable {m : Machine} {s : Spot}

-- ============================================================================
-- One segment
-- ============================================================================

/-- A merge point does nothing. -/
theorem move_mergePoint {greens : List Reg}
    (hi : m.program.instr? s.loc = some (.mergePoint greens)) (call : Callee) :
    m.move call s = .on ⟨s.loc.after, s.frame, s.io⟩ := by
  rw [move_of_instr hi]
  rfl

/-- The way that the top frame goes if nothing stops it: a segment goes a part of it,
past the merge point that it arrives at, or to its end. -/
theorem resume_onWay (hf : s.frame.IsFor m.program s.loc) (fuel : Nat) :
    (m.resume fuel s.loc s.frame s.io).Meets
      (fun e t =>
        (e.kind = .mergePoint ∧ e.loc.next? = some e.loc.after ∧
          m.Passes m.callee (fun _ => false) s ⟨e.loc.after, e.frame, t.io⟩) ∨
        (e.kind ≠ .mergePoint ∧ m.final (fun _ => false) s = .done e t.io))
      (fun fault t => m.final (fun _ => false) s = .failed fault t.io)
      (m.walkFrom fuel m.stopsAt s = .starved) := by
  have hfree : ∀ l, (fun _ : Location => false) l = true → m.stopsAt l = true :=
    fun l h => by cases h
  refine (resume_meets hf fuel).imp ?_ ?_ id
  · rintro ⟨loc, kind, f⟩ t ⟨hreach, hsuits, hkind | ⟨v, hkind⟩⟩
    · subst hkind
      have hstop : m.stopsAt loc = true := hsuits
      obtain ⟨greens, hi⟩ := Program.exists_mergePoint_of_isDispatchPoint hstop
      have hafter := Program.isSome_instr?_after hi (List.mem_singleton_self _)
      refine Or.inl ⟨rfl, inWidth_eq_ok.mp (Program.next?_of_isSome_instr? hafter), ?_⟩
      exact Relation.TransGen.tail' (hreach.weaken hfree)
        ⟨rfl, move_mergePoint (s := ⟨loc, f, t.io⟩) hi m.callee⟩
    · subst hkind
      obtain ⟨src, hi, hv⟩ := hsuits
      have hv : f.get src = v := hv
      subst hv
      refine Or.inr ⟨(fun h => by cases h), ?_⟩
      have hstops : m.Stops m.callee (fun _ => false) ⟨loc, f, t.io⟩ _ :=
        stops_of_ret (s := ⟨loc, f, t.io⟩) hi rfl
      exact Concludes.final_eq ⟨_, hreach.weaken hfree, hstops⟩
  · intro fault t hconcludes
    exact (hconcludes.weaken hfree (fun e io h => by cases h)).final_eq

-- ============================================================================
-- Segment after segment
-- ============================================================================

/-- Segments that came to an end have come to that of the way without stops. -/
theorem relay_below (hf : s.frame.IsFor m.program s.loc) (fuel n : Nat) :
    (m.relay fuel n s).Below (m.final (fun _ => false) s).returned := by
  induction n generalizing s with
  | zero => exact .starved _
  | succ n ih =>
    have hway := resume_onWay hf fuel
    rw [relay]
    cases hr : m.resume fuel s.loc s.frame s.io with
    | starved => exact .starved _
    | failed fault t =>
      rw [hr] at hway
      rw [show m.final (fun _ => false) s = .failed fault t.io from hway]
      exact .refl _
    | done e t =>
      rw [hr] at hway
      rcases hway with ⟨hkind, hnext, hpasses⟩ | ⟨hkind, hfinal⟩
      · have hreach : m.Reaches m.callee (fun _ => false) s ⟨e.loc.after, e.frame, t.io⟩ :=
          hpasses.to_reflTransGen
        simp only [if_pos hkind, hnext]
        rw [hreach.final_eq]
        exact ih (hf.of_reaches hreach)
      · simp only [if_neg hkind, hfinal]
        exact .refl _

/-- Where the way without stops ends within an allowance, so do segments with that
allowance each, and there are no more of them than it has instructions. -/
theorem relay_ne_starved (hf : s.frame.IsFor m.program s.loc) {k fuel n : Nat}
    (hk : m.walkFrom k (fun _ => false) s ≠ .starved) (hfuel : k ≤ fuel) (hn : k ≤ n) :
    m.relay fuel n s ≠ .starved := by
  -- on the allowance: past a merge point, the rest of the way takes less
  induction k using Nat.strongRecOn generalizing s n with
  | ind k ih =>
    have hwalk : m.walkFrom fuel m.stopsAt s ≠ .starved := by
      have hstopping : m.walkFrom k m.stopsAt s ≠ .starved :=
        walkFrom_stopping (fun _ => isSome_of_stopsAt) (fun l h => by cases h) hk
      intro hstarved
      exact hstopping (((m.walkFrom_chain m.stopsAt s).below hfuel).eq_starved hstarved)
    have hway := resume_onWay hf fuel
    cases n with
    | zero =>
      obtain rfl : k = 0 := Nat.le_zero.mp hn
      exact absurd rfl hk
    | succ n =>
      rw [relay]
      cases hr : m.resume fuel s.loc s.frame s.io with
      | starved =>
        rw [hr] at hway
        exact absurd hway hwalk
      | failed fault t => exact fun h => by cases h
      | done e t =>
        rw [hr] at hway
        rcases hway with ⟨hkind, hnext, hpasses⟩ | ⟨hkind, -⟩
        · obtain ⟨k', hlt, hk'⟩ := hpasses.within hk
          simp only [if_pos hkind, hnext]
          exact ih k' hlt (hf.of_reaches hpasses.to_reflTransGen) hk' (by omega) (by omega)
        · simp only [if_neg hkind]
          exact Outcome.ofResult_ne_starved _ _

-- ============================================================================
-- Programs
-- ============================================================================

/-- Calling the entry function walks the frame that a program starts with. -/
theorem call_entry (m : Machine) (fuel : Nat) (io : Console) :
    m.call fuel 0 m.program.entry [] io =
      (m.walkFrom fuel (fun _ => false) (m.program.start io)).returned := by
  obtain ⟨fn, hfn⟩ := m.program.exists_entry
  have hstart : m.program.start io =
      ⟨⟨m.program.entry, 0⟩, Frame.ofArgs fn.registers [], io⟩ := by
    simp only [Program.start, Program.entryFrame, hfn, Frame.ofArgs, Frame.setArgs]
  rw [call_eq_returned (Nat.zero_le _) hfn, hstart]
  rfl

theorem final_withHeaders (m : Machine) (h : Bool) (s : Spot) :
    (m.withHeaders h).final (fun _ => false) s = m.final (fun _ => false) s := by
  simp only [final, walkFrom, walk_withHeaders]

/-- Segments cannot be observed. Run in segments, by either rule for where execution
changes hands, a program comes to an end if a call of its entry function does, and
then with the same result and the same effects. -/
theorem segments_are_invisible (m : Machine) (headersOnly : Bool) (io : Console) :
    ((∃ fuel n, (m.withHeaders headersOnly).relay fuel n (m.program.start io) ≠ .starved) ↔
      ∃ fuel, m.call fuel 0 m.program.entry [] io ≠ .starved) ∧
    ∀ fuel n fuel', (m.withHeaders headersOnly).relay fuel n (m.program.start io) ≠ .starved →
      m.call fuel' 0 m.program.entry [] io ≠ .starved →
      (m.withHeaders headersOnly).relay fuel n (m.program.start io) =
        m.call fuel' 0 m.program.entry [] io := by
  have hf := m.program.isFor_start io
  have hrelay : ∀ fuel n, ((m.withHeaders headersOnly).relay fuel n (m.program.start io)).Below
      (m.whole io) := by
    intro fuel n
    have hbelow := relay_below (m := m.withHeaders headersOnly) hf fuel n
    rwa [final_withHeaders] at hbelow
  have hcall : ∀ fuel, m.call fuel 0 m.program.entry [] io ≠ .starved →
      m.call fuel 0 m.program.entry [] io = m.whole io := by
    intro fuel hne
    rw [call_entry] at hne ⊢
    rw [whole, final_eq_of_walkFrom (fun h => hne (Outcome.returned_eq_starved.mpr h))]
  refine ⟨⟨?_, ?_⟩, ?_⟩
  · rintro ⟨fuel, n, hne⟩
    have hwhole : m.whole io ≠ .starved := (hrelay fuel n).eq_of_ne hne ▸ hne
    obtain ⟨k, hk⟩ := Outcome.exists_eq_eventual
      (m.walkFrom_chain (fun _ => false) (m.program.start io))
    refine ⟨k, ?_⟩
    rw [call_entry, hk k (Nat.le_refl k)]
    exact hwhole
  · rintro ⟨fuel, hne⟩
    rw [call_entry] at hne
    have hwalk : m.walkFrom fuel (fun _ => false) (m.program.start io) ≠ .starved :=
      fun h => hne (Outcome.returned_eq_starved.mpr h)
    have hwalk' : (m.withHeaders headersOnly).walkFrom fuel (fun _ => false)
        (m.program.start io) ≠ .starved := by
      simpa only [walkFrom, walk_withHeaders] using hwalk
    exact ⟨fuel, fuel, relay_ne_starved (m := m.withHeaders headersOnly) hf hwalk' (Nat.le_refl _)
      (Nat.le_refl _)⟩
  · intro fuel n fuel' hne hne'
    rw [(hrelay fuel n).eq_of_ne hne, hcall fuel' hne']

/-- An interpreter for a loop with a merge point, which prints its input three times. -/
def countdownMachine : Machine := { program := Trial.countdownProgram }

/-- Four segments, and no fewer, print and return what one call does. -/
theorem segments_are_invisible_countdown :
    (countdownMachine.withHeaders false).relay 9 3 (countdownMachine.program.start ⟨[.int 7], []⟩) =
      .starved ∧
    countdownMachine.call 30 0 countdownMachine.program.entry [] ⟨[.int 7], []⟩ =
      .done (.int 7) ⟨[], [.int 7, .int 7, .int 7]⟩ ∧
    (countdownMachine.withHeaders false).relay 9 4 (countdownMachine.program.start ⟨[.int 7], []⟩) =
      countdownMachine.call 30 0 countdownMachine.program.entry [] ⟨[.int 7], []⟩ := by
  have hcall : countdownMachine.call 30 0 countdownMachine.program.entry [] ⟨[.int 7], []⟩ =
      .done (.int 7) ⟨[], [.int 7, .int 7, .int 7]⟩ := rfl
  have hrelay : (countdownMachine.withHeaders false).relay 9 4
      (countdownMachine.program.start ⟨[.int 7], []⟩) =
        .done (.int 7) ⟨[], [.int 7, .int 7, .int 7]⟩ := rfl
  refine ⟨rfl, hcall, (segments_are_invisible countdownMachine false _).2 9 4 30 ?_ ?_⟩
  · rw [hrelay]
    exact fun h => by cases h
  · rw [hcall]
    exact fun h => by cases h

end Machine

end HotPath
