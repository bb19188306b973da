/-
  HotPath.Trace.Run

  Running a trace on a frame. Slots are read and written by number; a number
  past the end is a breach.
-/
import HotPath.Machine
import HotPath.Trace.Basic

namespace HotPath

/-- How far the operations of a trace got. -/
inductive Trace.Progress where
  /-- They ran to their end. -/
  | going (slots : Array Value) (io : Console)
  | left (exit : Exit) (io : Console)
  | failed (fault : Fault) (io : Console)
  | starved

namespace Operand

/-- The value of an operand. -/
def eval (slots : Array Value) : Operand → Except Fault Value
  | .const value => .ok value
  | .slot s => inRange slots[s]?

/-- The values of operands, in order. -/
def evalAll (slots : Array Value) : List Operand → Except Fault (List Value)
  | [] => .ok []
  | x :: xs =>
    match x.eval slots with
    | .error e => .error e
    | .ok v =>
      match evalAll slots xs with
      | .error e => .error e
      | .ok vs => .ok (v :: vs)

end Operand

namespace Leave

/-- Rebuilds the registers from a position on. -/
def fill (slots : Array Value) (i : Nat) (f : Frame) : List Binding → Except Fault Frame
  | [] => .ok f
  | x :: xs =>
    match x.operand.eval slots with
    | .error e => .error e
    | .ok v => fill slots (i + 1) (f.set (Reg.ofIndex i) v x.isTainted) xs

/-- The kind of exit that leaving gives. -/
def exitKind (l : Leave) (slots : Array Value) : Except Fault ExitKind :=
  match l.kind with
  | .mergePoint => .ok .mergePoint
  | .promotion reg => .ok (.promotion reg)
  | .fallback => .ok .fallback
  | .returned x =>
    match x.eval slots with
    | .error e => .error e
    | .ok v => .ok (.returned v)

/-- Leaves a trace. -/
def exit (l : Leave) (slots : Array Value) : Except Fault Exit :=
  match fill slots 0 (Frame.blank l.regs.length) l.regs with
  | .error e => .error e
  | .ok f =>
    match l.exitKind slots with
    | .error e => .error e
    | .ok kind => .ok ⟨l.loc, kind, f⟩

end Leave

namespace Trace.Progress

/-- Goes on with a value in a slot. -/
def store (slots : Array Value) (io : Console) (dst : Slot) (v : Value) : Progress :=
  if dst < slots.size then .going (slots.setIfInBounds dst v) io else .failed .outOfRange io

/-- Leaves the trace. -/
def leave (slots : Array Value) (io : Console) (l : Leave) : Progress :=
  match l.exit slots with
  | .ok e => .left e io
  | .error e => .failed e io

/-- Goes on with a value, if there is one. -/
def withValue {α : Type} (io : Console) (x : Except Fault α) (go : α → Progress) : Progress :=
  match x with
  | .ok v => go v
  | .error e => .failed e io

end Trace.Progress

open Trace.Progress in
mutual

/-- Runs one operation. -/
def Op.run (call : Machine.Callee) (slots : Array Value) (io : Console) : Op → Trace.Progress
  | .const dst v => store slots io dst v
  | .copy dst src => withValue io (inRange slots[src]?) (store slots io dst)
  | .binary op dst lhs rhs =>
    withValue io (lhs.eval slots) (fun a =>
      withValue io (rhs.eval slots) (fun b =>
        withValue io ((op.eval a b).mapError Fault.runtime) (store slots io dst)))
  | .input dst => store slots io.read.2 dst io.read.1
  | .print src => withValue io (src.eval slots) (fun v => .going slots (io.write v))
  | .alloc dst fields =>
    withValue io (Operand.evalAll slots fields) (fun vs => store slots io dst (.tuple vs))
  | .getField dst obj index =>
    withValue io (obj.eval slots) (fun v =>
      withValue io ((v.field index).mapError Fault.runtime) (store slots io dst))
  | .call dst func args =>
    withValue io (Operand.evalAll slots args) (fun vs =>
      match call func vs io with
      | .done v io => store slots io dst v
      | .failed e io => .failed e io
      | .starved => .starved)
  | .guard cond expect l =>
    withValue io (cond.eval slots) (fun v =>
      if v.truthy = expect then .going slots io else leave slots io l)
  | .branch cond thenOps elseOps =>
    withValue io (cond.eval slots) (fun v =>
      if v.truthy then Op.runAll call slots io thenOps else Op.runAll call slots io elseOps)
  | .exit l => leave slots io l

/-- Runs operations in order until one leaves or fails. -/
def Op.runAll (call : Machine.Callee) (slots : Array Value) (io : Console) :
    List Op → Trace.Progress
  | [] => .going slots io
  | op :: ops =>
    match Op.run call slots io op with
    | .going slots io => Op.runAll call slots io ops
    | r => r

end

namespace Trace

/-- The slots at the entry: the frame's values, then nils. -/
def entrySlots (t : Trace) (f : Frame) : Array Value :=
  (f.values ++ List.replicate (max t.slots t.registers - t.registers) Value.nil).toArray

/-- Runs a trace on a frame. Calls run on the machine, one frame down. -/
def run (t : Trace) (m : Machine) (fuel : Nat) (f : Frame) (io : Console) :
    Outcome Console Exit :=
  if f.size = t.registers then
    match Op.runAll (m.call fuel 1) (t.entrySlots f) io t.ops with
    | .going _ io => .failed (.program (.unitRanPast t.entry)) io
    | .left e io => .done e io
    | .failed e io => .failed e io
    | .starved => .starved
  else .failed (.program (.unitFrame t.entry f.size t.registers)) io

end Trace

end HotPath
