/-
  HotPath.Region.Grow

  Specializing a region. The walk goes through the code from the region's
  entry, computes what depends on fixed values only and leaves operations
  behind for the rest. It ends at a merge point where execution changes hands,
  at a promotion that it cannot resolve, or at a return.

  A split on a value that is not fixed walks both arms up to its join and
  merges them. A split with an allocating arm is not walked twice: if one arm
  dominates, a guard keeps to it, and otherwise the attempt gives up.

  All arms count against one budget of instructions. The allowance of `grow` is
  larger than the budget, so the budget always ends the walk first.
-/
import HotPath.Heat
import HotPath.Program.Basic
import HotPath.Region.Merge

namespace HotPath

/-- All that specialization consults. -/
structure Guide where
  program : Program
  policy : Policy
  heat : Heat
  store : UnitStore

/-- Why an attempt gave up. -/
inductive GiveUp where
  /-- A split with an allocating arm, and neither arm dominates. -/
  | complicatedSplit (loc : Location)
  | tooLong (limit : Nat)
  deriving DecidableEq

/-- The reason as text. -/
def GiveUp.text : GiveUp → String
  | .complicatedSplit loc => s!"complicated split at {loc.text}"
  | .tooLong limit => s!"region exceeds {limit} instructions"

/-- What came of an attempt. -/
inductive Verdict where
  | committed (trace : Trace)
  /-- There is nothing to execute. -/
  | empty
  | fallback (reason : GiveUp)

/-- Twice a count. -/
def twice (n : Nat) : Except Fault Nat :=
  if 2 * n ≤ Word.max then .ok (2 * n) else .error .overflow

/-- Whether one arm of a split dominates: its count reaches the threshold and is
more than twice the other's. -/
def dominates (threshold count other : Nat) : Except Fault Bool :=
  if threshold ≤ count then (twice other).map (fun n => decide (n < count)) else .ok false

/-- The dominating arm of a split, if there is one. -/
def Guide.hotArm (g : Guide) (loc : Location) : Except Fault (Option Bool) := do
  let taken := g.heat.count (.split loc true)
  let notTaken := g.heat.count (.split loc false)
  if ← dominates g.policy.splitThreshold taken notTaken then return some true
  else if ← dominates g.policy.splitThreshold notTaken taken then return some false
  else return none

namespace Region

/-! ## Single instructions -/

/-- What one instruction does to a walk. -/
inductive Step where
  /-- The walk goes on. -/
  | on (region : Region)
  /-- The walk ends with an exit. -/
  | ends (region : Region)
  /-- A split on a value that is not fixed. -/
  | split (cond : Operand) (elsePc : Nat) (join : Option Nat)

/-- Leaves an operation behind that fills a new slot, and moves a register
there. -/
def residual (r : Region) (dst : Reg) (tainted : Bool) (op : Slot → Op) :
    Except Fault Region := do
  let (slot, r) ← r.fresh
  (r.emit (op slot)).set dst (.slot slot tainted)

/-- The value of an operator on two registers, if it is known and there is one. -/
def fold? (op : Operator) (l r : Binding) : Option Value :=
  match l.const?, r.const? with
  | some a, some b => (op.eval a b).toOption
  | _, _ => none

/-- The values of registers that are all fixed. -/
def consts? (bs : List Binding) : Option (List Value) :=
  if bs.all Binding.isFixed then some (bs.filterMap Binding.const?) else none

/-- Processes an instruction that is no jump, split or exit. -/
def compute (g : Guide) (r : Region) : Instr → Except Fault Region
  | .const dst v => r.set dst (.literal v)
  | .move dst src => do
    r.set dst (← r.get src)
  | .binary op dst lhs rhs => do
    let a ← r.get lhs
    let b ← r.get rhs
    match fold? op a b with
    | some v => r.set dst (.literal v)
    | none =>
      r.residual dst (a.isTainted || b.isTainted) (fun s => .binary op s a.operand b.operand)
  | .input dst => r.residual dst true .input
  | .print src => do
    return r.emit (.print (← r.get src).operand)
  | .alloc dst fields => do
    let bs ← r.getAll fields
    match consts? bs with
    | some vs => r.set dst (.literal (.tuple vs))
    | none =>
      r.residual dst (bs.any Binding.isTainted) (fun s => .alloc s (bs.map Binding.operand))
  | .getField dst obj index => do
    let b ← r.get obj
    match b.const?.bind (fun v => (v.field index).toOption) with
    | some v => r.set dst (.literal v)
    | none => r.residual dst b.isTainted (fun s => .getField s b.operand index)
  | .call dst func args => do
    let bs ← r.getAll args
    r.residual dst (g.program.hasEffects func || bs.any Binding.isTainted)
      (fun s => .call s func (bs.map Binding.operand))
  | .jump _ | .branch .. | .mergePoint _ | .promote _ | .ret _ => .ok r

/-- Processes one instruction. -/
def step (g : Guide) (r : Region) (i : Instr) : Except Fault Step :=
  match i with
  | .jump target => .ok (.on (r.jump target))
  | .branch cond elsePc join => do
    let b ← r.get cond
    match b.const? with
    | some v => return .on (r.jump (if v.truthy then r.cursor + 1 else elsePc))
    | none => return .split b.operand elsePc join
  | .mergePoint _ =>
    if g.program.isDispatchPoint g.policy.loopHeadersOnly r.loc then
      .ok (.ends (r.leaveHere .mergePoint))
    else r.advance.map .on
  | .promote reg => do
    let b ← r.get reg
    if !b.isFixed && !b.isTainted && !g.store.isGeneric r.loc then
      return .ends (r.leaveHere (.promotion reg))
    else r.advance.map .on
  | .ret src => do
    let b ← r.get src
    return .ends (r.leaveHere (.returned b.operand))
  | i => do
    let r ← r.compute g i
    r.advance.map .on

/-! ## Splits -/

/-- How a walk ended. -/
inductive Ending where
  /-- All paths leave. -/
  | done
  /-- It came to the join of the split around it. -/
  | joined
  | gaveUp (reason : GiveUp)

/-- Keeps to one arm of a split; control that wants the other leaves. -/
def keepArm (r : Region) (cond : Operand) (taken : Bool) (elsePc : Nat) : Region :=
  (r.emit (.guard cond taken (r.leaveAt r.loc .fallback))).jump
    (if taken then r.cursor + 1 else elsePc)

/-- The arm of a split that its condition selects. -/
def thenArm (r : Region) (join : Option Nat) : Region := r.fork (r.cursor + 1) join

/-- The other arm, walked after the first. -/
def elseArm (r : Region) (thenArm : Region) (elsePc : Nat) (join : Option Nat) : Region :=
  ((r.fork elsePc join).reserve thenArm).charge thenArm.steps

/-- Ends a split with its two arms' operations. -/
def closeSplit (r : Region) (cond : Operand) (spent : Nat) (thenOps elseOps : List Op) : Region :=
  (r.charge spent).emit (.branch cond thenOps elseOps)

/-- Puts two walked arms together, and says whether the walk goes on. For each
arm it is given whether it stopped at the join; where one did not, the walk goes
on from the other, and where neither did it ends. Where the arms cannot be
merged, the walk goes on from the first and the second leaves. -/
def rejoin (r : Region) (cond : Operand) (thenArm elseArm : Region)
    (thenJoined elseJoined : Bool) : Except Fault (Bool × Region) :=
  let thenOps := thenArm.ops.toList
  let elseOps := elseArm.ops.toList
  let close (r : Region) (thenOps elseOps : List Op) : Region :=
    r.closeSplit cond elseArm.steps thenOps elseOps
  match thenJoined, elseJoined with
  | true, true => do
    match ← mergeArms thenArm elseArm with
    | .merged thenOps elseOps merged =>
      return (true, close (r.continueFrom merged) thenOps elseOps)
    | .clash .. =>
      return (true, close ((r.reserve elseArm).continueFrom thenArm) thenOps
        (elseArm.leaveHere .fallback).ops.toList)
  | true, false => .ok (true, close ((r.reserve elseArm).continueFrom thenArm) thenOps elseOps)
  | false, true => .ok (true, close ((r.reserve thenArm).continueFrom elseArm) thenOps elseOps)
  | false, false => .ok (false, close (r.reserve elseArm) thenOps elseOps)

/-- Whether a walk that did not give up stopped at a join. -/
def Ending.isJoined : Ending → Bool
  | .joined => true
  | _ => false

/-! ## The walk -/

/-- Walks a region or an arm to its end. -/
def grow (g : Guide) : Nat → Region → Except Fault (Ending × Region)
  | 0, r => .ok (.gaveUp (.tooLong g.policy.maxRegionInstrs), r)
  | n + 1, r =>
    if r.stopAt = some r.cursor then .ok (.joined, r)
    else do
      let r ← r.tick
      if g.policy.maxRegionInstrs < r.steps then
        return (.gaveUp (.tooLong g.policy.maxRegionInstrs), r)
      else
        match g.program.instr? r.loc with
        | none => .error (.program (.regionRanOff r.loc))
        | some i =>
          match ← r.step g i with
          | .on r => grow g n r
          | .ends r => return (.done, r)
          | .split cond elsePc join =>
            if g.program.isAllocatingSplit r.loc then
              match ← g.hotArm r.loc with
              | some taken => grow g n (r.keepArm cond taken elsePc)
              | none => return (.gaveUp (.complicatedSplit r.loc), r)
            else
              let (thenEnd, a) ← grow g n (r.thenArm join)
              match thenEnd with
              | .gaveUp reason => return (.gaveUp reason, a)
              | thenEnd =>
                let (elseEnd, b) ← grow g n (r.elseArm a elsePc join)
                match elseEnd with
                | .gaveUp reason => return (.gaveUp reason, b)
                | elseEnd =>
                  match ← r.rejoin cond a b thenEnd.isJoined elseEnd.isJoined with
                  | (true, r) => grow g n r
                  | (false, r) => return (.done, r)

/-- Specializes a region. -/
def specialize (g : Guide) (r : Region) : Except Fault Verdict := do
  let (ending, grown) ← grow g (g.policy.maxRegionInstrs + 2) r
  match ending with
  | .gaveUp reason => return .fallback reason
  | .joined => .error (.mergeIncompatible (.strayJoin r.entry))
  | .done => return if grown.toTrace.isEmpty then .empty else .committed grown.toTrace

end Region

end HotPath
