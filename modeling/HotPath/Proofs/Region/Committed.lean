/-
  HotPath.Proofs.Region.Committed

  Committed traces do what the interpreter does. `Trace.Follows` says that a
  trace, run on a frame with all its calls taken to their end, keeps up with the
  machine from an address on; that every committed trace does, on every frame
  that its region admits, is `Region.follows_of_committed`. Useless operations
  may be dropped before (`Trace.Follows.simplify`).

  What this means for runs on an allowance is `Trace.Follows.of_run` (a run that
  answers) and `Trace.Follows.exists_run` (where the interpreter ends, some
  allowance is enough). The main result, `Region.run_committed`, compares runs
  of a committed trace with resuming the interpreter.
-/
import HotPath.Proofs.Region.Entry
import HotPath.Proofs.Trace.Allowance
import HotPath.Proofs.Trace.Simplify

namespace HotPath

open Trace Trace.Progress

/-- A trace on a frame keeps up with the machine from an address on, whatever is
on the console. The machine starts from the frame that the trace takes its own
for. -/
structure Trace.Follows (t : Trace) (m : Machine) (loc : Location) (f f' : Frame) : Prop where
  size_eq : f.size = t.registers
  size_eq' : f'.size = f.size
  allBelow : Op.AllBelow (max t.slots t.registers) t.ops
  follows : ∀ io, (Op.runAll m.callee (t.entrySlots f) io t.ops).Follows m m.callee
    ⟨loc, f', io⟩ none

namespace Trace

variable {t : Trace} {m : Machine} {loc : Location} {f f' : Frame}

/-- Runs that never come to their end keep up with the machine if they end alike. -/
theorem Progress.Follows.of_ending {p q : Progress} {start : Spot} {call : Machine.Callee}
    (h : Op.ending q = Op.ending p) (hp : p.Follows m call start none) :
    q.Follows m call start none := by
  cases p with
  | going slots io =>
    obtain ⟨r, hr, -⟩ := hp
    cases hr
  | left e io =>
    cases q <;> cases h
    exact hp
  | failed e io =>
    cases q <;> cases h
    exact hp
  | starved =>
    cases q <;> cases h
    exact hp

namespace Follows

/-- Dropping useless operations makes no difference. -/
theorem simplify (h : t.Follows m loc f f') : t.simplify.Follows m loc f f' where
  size_eq := h.size_eq
  size_eq' := h.size_eq'
  allBelow := Op.AllBelow.settle _ h.allBelow
  follows := fun io => (h.follows io).of_ending (Op.ending_runAll_settle _ _ io _
    (size_entrySlots h.size_eq ▸ h.allBelow))

/-- A run that answers has kept up with the machine. -/
theorem of_run (h : t.Follows m loc f f') (fuel : Nat) (io : Console) :
    match t.run m fuel f io with
    | .done e io' => m.Reaches m.callee m.stopsAt ⟨loc, f', io⟩ ⟨e.loc, e.frame, io'⟩ ∧ e.Suits m
    | .failed e io' => m.Concludes m.callee m.stopsAt ⟨loc, f', io⟩ (.failed e io')
    | .starved => True := by
  have hf := h.follows io
  unfold run
  rw [if_pos h.size_eq]
  rcases Op.runAll_below (m.call_below_callee fuel) (t.entrySlots f) io t.ops with hr | hr
  · rw [hr]
    trivial
  · rw [hr]
    revert hf
    cases Op.runAll m.callee (t.entrySlots f) io t.ops with
    | going slots io' =>
      rintro ⟨r, hr, -⟩
      cases hr
    | left e io' => exact id
    | failed e io' => exact id
    | starved => exact fun _ => trivial

/-- Where runs of the trace never end, the machine does not either. -/
theorem exists_run (h : t.Follows m loc f f') (io : Console) :
    (∃ n, t.run m n f io ≠ .starved) ∨ m.Concludes m.callee m.stopsAt ⟨loc, f', io⟩ .starved := by
  have hf := h.follows io
  obtain ⟨n, hn⟩ := Op.exists_runAll_eq m (t.entrySlots f) io t.ops
  have hrun := hn n (Nat.le_refl n)
  cases hr : Op.runAll m.callee (t.entrySlots f) io t.ops with
  | starved =>
    rw [hr] at hf
    exact Or.inr hf
  | going slots io' =>
    refine Or.inl ⟨n, ?_⟩
    unfold run
    rw [if_pos h.size_eq, hrun, hr]
    exact nofun
  | left e io' =>
    refine Or.inl ⟨n, ?_⟩
    unfold run
    rw [if_pos h.size_eq, hrun, hr]
    exact nofun
  | failed e io' =>
    refine Or.inl ⟨n, ?_⟩
    unfold run
    rw [if_pos h.size_eq, hrun, hr]
    exact nofun

end Follows

end Trace

-- ============================================================================
-- Committed traces
-- ============================================================================

namespace Region

/-- A committed trace is what a walk ends with. -/
theorem grow_of_committed {g : Guide} {r : Region} {t : Trace}
    (h : r.specialize g = .ok (.committed t)) :
    ∃ r', grow g (g.policy.maxRegionInstrs + 2) r = .ok (.done, r') ∧ t = r'.toTrace := by
  unfold specialize at h
  obtain ⟨⟨ending, r'⟩, hgrow, h⟩ := bind_eq_ok.mp h
  cases ending with
  | gaveUp reason => cases h
  | joined => cases h
  | done =>
    dsimp only at h
    split at h
    · cases h
    · cases h
      exact ⟨r', hgrow, rfl⟩

/-- What a committed trace comes from. -/
theorem specialize_eq_committed {g : Guide} {r : Region} {t : Trace}
    (h : r.specialize g = .ok (.committed t)) :
    ∃ r', Walks g r false r' ∧ t = r'.toTrace := by
  obtain ⟨r', hgrow, ht⟩ := grow_of_committed h
  exact ⟨r', walks_of_grow hgrow rfl, ht⟩

/-- A walk that does something starts in the code of a function. -/
theorem Walks.inCode {g : Guide} {r r' : Region} (h : Walks g r false r') :
    ∃ fn, g.program.functions[r.func]? = some fn ∧ r.cursor < fn.code.size := by
  have hbegin : ∀ {r₁ : Region} {i : Instr}, Begins g r r₁ i →
      ∃ fn, g.program.functions[r.func]? = some fn ∧ r.cursor < fn.code.size := by
    intro r₁ i hb
    have hi := hb.instr
    rw [tick_eq_ok hb.tick] at hi
    obtain ⟨fn, hfn, hcode⟩ := Program.instr?_eq_some.mp hi
    exact ⟨fn, hfn, Program.lt_of_getElem? hcode⟩
  cases h with
  | ends hb _ => exact hbegin hb
  | on hb _ _ => exact hbegin hb
  | keep hb _ _ => exact hbegin hb
  | rejoin hb _ _ _ _ _ _ => exact hbegin hb
  | part hb _ _ _ _ _ => exact hbegin hb

/-- A committed trace keeps up with the machine on every frame that its region
admits. -/
theorem follows_of_committed {g : Guide} {m : Machine} (hg : g.Describes m) {loc : Location}
    {f₀ f f' : Frame} {origin : Reg → Option Origin} {t : Trace}
    (hsize : ∀ fn, g.program.functions[loc.func]? = some fn → f₀.size = fn.registers)
    (ht : (entering loc f₀ origin).specialize g = .ok (.committed t))
    (ha : (entering loc f₀ origin).Admits f f') : t.Follows m loc f f' := by
  obtain ⟨r', hw, rfl⟩ := specialize_eq_committed ht
  obtain ⟨fn, hfn, hpc⟩ := hw.inCode
  have hfit : (entering loc f₀ origin).Fits g.program fn :=
    fits_entering hfn (hsize fn hfn) hpc
  obtain ⟨ops, hops⟩ : ∃ ops, Walked m m.callee fn g.policy.maxRegionInstrs
      (entering loc f₀ origin) ops false r' := hw.walked hg hfit (Nat.zero_le _)
  have hreg : f.size = r'.regs.length := ha.size_eq.trans hops.grows.length_eq.symm
  have hopseq : r'.toTrace.ops = ops := hops.grows.ops_eq
  refine ⟨hreg, ha.size_eq', ?_, fun io => ?_⟩
  · rw [hopseq]
    exact hops.grows.allBelow.mono (Nat.le_max_left _ _)
  · have hspot : (entering loc f₀ origin).spot (r'.toTrace.entrySlots f) io = ⟨loc, f', io⟩ := by
      unfold spot
      rw [frame_entering ha (fun i hi => r'.toTrace.getD_entrySlots hi)]
      rfl
    rw [← hspot, hopseq]
    refine hops.covers _ io ?_
    rw [size_entrySlots hreg]
    exact Nat.le_max_left _ _

end Region

-- ============================================================================
-- Resuming where a unit started or left
-- ============================================================================

namespace Machine

/-- What the outcome of a unit says about resuming the interpreter where the unit
started. An exit to a merge point or from the function is the interpreter's own;
at a promotion site or a fallback the interpreter would go on from the exit. -/
def Refines (m : Machine) (s : Spot) : Outcome Console Exit → Prop
  | .done e io =>
    match e.kind with
    | .mergePoint | .returned _ => m.resumes s = .done e io
    | .promotion _ | .fallback => m.resumes s = m.resumes ⟨e.loc, e.frame, io⟩
  | .failed e io => m.resumes s = .failed e io
  | .starved => True

variable {m : Machine}

/-- An exit from the function ends the walk as the machine does. -/
theorem stops_of_ret {s : Spot} {src : Reg} {call : Callee} {stop : Location → Bool}
    (hi : m.program.instr? s.loc = some (.ret src)) (hs : stop s.loc = false) :
    m.Stops call stop s (.done ⟨s.loc, .returned (s.frame.get src), s.frame⟩ s.io) := by
  refine .halts hs ?_
  rw [move_of_instr hi]
  rfl

/-- An exit that is reached and suits its place is what resuming comes to, or
where it can go on from. -/
theorem refines_of_reaches {s : Spot} {fn : Function} {e : Exit} {io : Console}
    (hf : m.program.functions[s.loc.func]? = some fn) (hsize : s.frame.size = fn.registers)
    (hr : m.Reaches m.callee m.stopsAt s ⟨e.loc, e.frame, io⟩) (he : e.Suits m) :
    m.Refines s (.done e io) := by
  obtain ⟨loc, kind, f⟩ := e
  obtain ⟨hfunc, hsize'⟩ := hr.same_frame
  have hf' : m.program.functions[loc.func]? = some fn := by
    rw [show loc.func = s.loc.func from hfunc]
    exact hf
  cases kind with
  | mergePoint =>
    show m.resumes s = _
    rw [resumes_eq_final hf hsize]
    exact Concludes.final_eq ⟨_, hr, .arrives he (Program.isSome_instr?_of_isDispatchPoint he)⟩
  | returned v =>
    obtain ⟨src, hi, hv⟩ := he
    have hv : f.get src = v := hv
    subst hv
    show m.resumes s = _
    rw [resumes_eq_final hf hsize]
    exact Concludes.final_eq ⟨_, hr, stops_of_ret hi (stopsAt_eq_false hi rfl)⟩
  | promotion reg =>
    show m.resumes s = m.resumes ⟨loc, f, io⟩
    rw [resumes_eq_final hf hsize, resumes_eq_final hf' (hsize'.trans hsize)]
    exact hr.final_eq
  | fallback =>
    show m.resumes s = m.resumes ⟨loc, f, io⟩
    rw [resumes_eq_final hf hsize, resumes_eq_final hf' (hsize'.trans hsize)]
    exact hr.final_eq

end Machine

namespace Trace.Follows

variable {t : Trace} {m : Machine} {loc : Location} {f : Frame} {fn : Function}

theorem refines (h : t.Follows m loc f f) (hf : m.program.functions[loc.func]? = some fn)
    (hsize : f.size = fn.registers) (fuel : Nat) (io : Console) :
    m.Refines ⟨loc, f, io⟩ (t.run m fuel f io) := by
  have hrun := h.of_run fuel io
  cases hr : t.run m fuel f io with
  | starved => trivial
  | done e io' =>
    rw [hr] at hrun
    exact Machine.refines_of_reaches (s := ⟨loc, f, io⟩) hf hsize hrun.1 hrun.2
  | failed e io' =>
    rw [hr] at hrun
    show m.resumes ⟨loc, f, io⟩ = _
    rw [Machine.resumes_eq_final (s := ⟨loc, f, io⟩) hf hsize]
    exact Machine.Concludes.final_eq hrun

theorem resumes_starved (h : t.Follows m loc f f) (hf : m.program.functions[loc.func]? = some fn)
    (hsize : f.size = fn.registers) {io : Console} (hnever : ∀ fuel, t.run m fuel f io = .starved) :
    m.resumes ⟨loc, f, io⟩ = .starved := by
  rcases h.exists_run io with ⟨n, hn⟩ | hc
  · exact absurd (hnever n) hn
  · rw [Machine.resumes_eq_final (s := ⟨loc, f, io⟩) hf hsize]
    exact hc.final_eq

end Trace.Follows

namespace Region

/-- The regions that specialization starts from, for a frame: after a merge
point with its greens fixed, after a promotion site with its untainted register
fixed, or anywhere with nothing fixed. -/
inductive Enters (p : Program) (f : Frame) : Region → Prop where
  | mergePoint {loc : Location} {greens : List Reg} {r : Region}
    (hi : p.instr? loc = some (.mergePoint greens)) (h : atMergePoint loc greens f = .ok r) :
    Enters p f r
  | promotion {site : Location} {reg : Reg} {r : Region} (hi : p.instr? site = some (.promote reg))
    (ht : f.isTainted reg = false) (h : atPromotion site reg f = .ok r) : Enters p f r
  | generic (loc : Location) : Enters p f (.generic loc f)

theorem Enters.eq_entering {p : Program} {f : Frame} {r : Region} (h : Enters p f r) :
    ∃ loc origin, r = entering loc f origin := by
  cases h with
  | mergePoint hi h =>
    obtain ⟨next, -, h⟩ := bind_eq_ok.mp h
    cases h
    exact ⟨_, _, rfl⟩
  | promotion hi ht h =>
    obtain ⟨next, -, h⟩ := bind_eq_ok.mp h
    cases h
    exact ⟨_, _, rfl⟩
  | generic loc => exact ⟨_, _, rfl⟩

/-- A region admits the frames of the same size and taint with the values that
it has fixed. -/
theorem admits_entering {loc : Location} {f f' : Frame} {origin : Reg → Option Origin}
    (hsize : f'.size = f.size) (hmask : f'.mask = f.mask)
    (hfix : ∀ reg k, (entering loc f origin).regs[reg]? = some (.fixed k) → f'.get reg = k.value) :
    (entering loc f origin).Admits f' f' where
  size_eq := hsize.trans (length_entering loc f origin).symm
  size_eq' := rfl
  taint_eq := by
    intro i b hb
    obtain ⟨c, hc, rfl⟩ := getElem?_entering hb
    rw [Frame.isTainted_eq_of_mask hsize hmask, entryBinding_isTainted]
    unfold Frame.isTainted
    rw [hc]
  fixed_eq := hfix
  slot_eq := fun _ _ _ _ => rfl

/-- A committed trace simulates the interpreter: on every frame of the size and
the taint of the one it was made for, with the values that it fixed, an answer
of the trace tells what resuming the interpreter at its entry comes to, and if
the trace never answers, resuming never ends. -/
theorem run_committed {g : Guide} {m : Machine} {f f' : Frame} {r : Region} {t : Trace}
    (hg : g.Describes m) (hr : Enters g.program f r)
    (hregs : ∀ fn, g.program.functions[r.func]? = some fn → f.size = fn.registers)
    (ht : r.specialize g = .ok (.committed t)) (hsize : f'.size = f.size)
    (hmask : f'.mask = f.mask)
    (hfix : ∀ reg k, r.regs[reg]? = some (.fixed k) → f'.get reg = k.value)
    (simplifies : Bool) (io : Console) :
    (∀ fuel, m.Refines ⟨r.entry, f', io⟩
      ((if simplifies then t.simplify else t).run m fuel f' io)) ∧
    ((∀ fuel, (if simplifies then t.simplify else t).run m fuel f' io = .starved) →
      m.resumes ⟨r.entry, f', io⟩ = .starved) := by
  obtain ⟨loc, origin, rfl⟩ := hr.eq_entering
  obtain ⟨r', hw, -⟩ := specialize_eq_committed ht
  obtain ⟨fn, hfn, -⟩ := hw.inCode
  have hfollows := follows_of_committed hg hregs ht (admits_entering hsize hmask hfix)
  have hunit : (if simplifies then t.simplify else t).Follows m loc f' f' := by
    cases simplifies with
    | true => exact hfollows.simplify
    | false => exact hfollows
  have hfn' : m.program.functions[loc.func]? = some fn := by
    rw [hg.program]
    exact hfn
  have hsize' : f'.size = fn.registers := hsize.trans (hregs fn hfn)
  exact ⟨fun fuel => hunit.refines hfn' hsize' fuel io, hunit.resumes_starved hfn' hsize'⟩

/-- A loop that adds its green to a register, prints the sum and starts over. -/
def adding : Function :=
  { name := "adding", registers := 2,
    code := #[.mergePoint [0], .binary .add 1 1 0, .print 1, .jump 0] }

/-- The loop as a program. -/
def addingProgram : Program :=
  { functions := #[adding], entry := 0, facts := .ofFunctions #[adding], faultless := by decide,
    facts_eq := rfl }

/-- A frame of the loop: five as the green, and a sum that comes from input. -/
def addingFrame (sum : Int64) : Frame := ⟨[⟨.int 5, false⟩, ⟨.int sum, true⟩]⟩

/-- The region after the merge point, for such a frame. -/
def addingRegion : Region :=
  { func := 0, entry := ⟨0, 1⟩, regs := [.fixed ⟨.int 5, true⟩, .slot 1 true], cursor := 1,
    nextSlot := 2 }

/-- What is left of that region. -/
def addingTrace : Trace :=
  { entry := ⟨0, 1⟩, slots := 3, registers := 2,
    ops := [.binary .add 2 (.slot 1) (.const (.int 5)), .print (.slot 2),
      .exit ⟨⟨0, 0⟩, .mergePoint, [.fixed ⟨.int 5, true⟩, .slot 2 true]⟩] }

/-- A trace that was made for one sum runs on another. -/
theorem run_committed_adding :
    atMergePoint ⟨0, 0⟩ [0] (addingFrame 1) = .ok addingRegion ∧
      addingRegion.specialize ⟨addingProgram, {}, {}, {}⟩ = .ok (.committed addingTrace) ∧
      ∀ fuel, Machine.Refines { program := addingProgram } ⟨⟨0, 1⟩, addingFrame 40, {}⟩
        (addingTrace.simplify.run { program := addingProgram } fuel (addingFrame 40) {}) := by
  have hr : atMergePoint ⟨0, 0⟩ [0] (addingFrame 1) = .ok addingRegion := rfl
  have ht : addingRegion.specialize ⟨addingProgram, {}, {}, {}⟩ = .ok (.committed addingTrace) :=
    rfl
  have hregs : ∀ fn, addingProgram.functions[addingRegion.func]? = some fn →
      (addingFrame 1).size = fn.registers := by
    intro fn hfn
    cases hfn
    rfl
  have hsize : (addingFrame 40).size = (addingFrame 1).size := rfl
  have hfix : ∀ reg k, addingRegion.regs[reg]? = some (.fixed k) →
      (addingFrame 40).get reg = k.value := by
    intro reg k hk
    match reg, hk with
    | 0, hk =>
      cases hk
      rfl
    | 1, hk => cases hk
    | n + 2, hk => cases hk
  exact ⟨hr, ht, (run_committed ⟨rfl, rfl, rfl⟩ (.mergePoint rfl hr) hregs ht hsize rfl hfix true
    {}).1⟩

end Region

end HotPath
