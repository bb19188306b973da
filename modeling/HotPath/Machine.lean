/-
  HotPath.Machine

  The interpreter. `Machine.exec` executes one instruction, `Machine.walk`
  repeats it in one frame, and calls nest walks.

  A walk takes the places where it has to stop. The top frame of a program
  stops where execution changes hands and keeps what it observes; a callee
  stops nowhere and runs to its return.

  Walks take an allowance, which bounds the instructions of each frame and the
  nesting of frames together.
-/
import HotPath.Exit
import HotPath.Program.Basic

namespace HotPath

/-- An interpreter for a program. -/
structure Machine where
  program : Program
  capabilities : Capabilities := .all
  maxCallDepth : Nat := 256
  /-- Stop only at merge points that are loop headers. -/
  loopHeadersOnly : Bool := false

namespace Machine

/-- Where control goes after an instruction. -/
inductive Flow where
  | next
  | goto (pc : Nat)
  | ret (value : Value)

/-- What one instruction leaves. -/
structure Step where
  flow : Flow
  frame : Frame
  seen : Option Observation := none

/-- A frame that is being run. -/
structure Activation where
  pc : Nat
  frame : Frame
  track : Track

/-- How to call a function. -/
abbrev Callee := FuncId → List Value → Console → Outcome Console Value

/-- Executes an instruction for which all capabilities are there. -/
def perform (m : Machine) (call : Callee) (loc : Location) (i : Instr) (f : Frame)
    (io : Console) : Outcome Console Step :=
  match i with
  | .const dst v => .done ⟨.next, f.set dst v false, none⟩ io
  | .move dst src => .done ⟨.next, f.set dst (f.get src) (f.isTainted src), none⟩ io
  | .binary op dst lhs rhs =>
    match op.eval (f.get lhs) (f.get rhs) with
    | .ok v => .done ⟨.next, f.set dst v (f.isTainted lhs || f.isTainted rhs), none⟩ io
    | .error e => .failed (.runtime e) io
  | .input dst => .done ⟨.next, f.set dst io.read.1 true, none⟩ io.read.2
  | .print src => .done ⟨.next, f, none⟩ (io.write (f.get src))
  | .alloc dst fields =>
    .done ⟨.next, f.set dst (.tuple (fields.map f.get)) (fields.any f.isTainted), none⟩ io
  | .getField dst obj index =>
    match (f.get obj).field index with
    | .ok v => .done ⟨.next, f.set dst v (f.isTainted obj), none⟩ io
    | .error e => .failed (.runtime e) io
  | .call dst func args =>
    match call func (args.map f.get) io with
    | .done v io =>
      .done ⟨.next, f.set dst v (m.program.hasEffects func || args.any f.isTainted), none⟩ io
    | .failed e io => .failed e io
    | .starved => .starved
  | .jump target => .done ⟨.goto target, f, none⟩ io
  | .branch cond elsePc _ =>
    let taken := (f.get cond).truthy
    .done ⟨if taken then .next else .goto elsePc, f, some (.split loc taken)⟩ io
  | .mergePoint _ => .done ⟨.next, f, none⟩ io
  | .promote reg =>
    .done ⟨.next, f, if f.isTainted reg then none else some (.promotion loc (f.get reg))⟩ io
  | .ret src => .done ⟨.ret (f.get src), f, none⟩ io

/-- Executes one instruction. -/
def exec (m : Machine) (call : Callee) (loc : Location) (i : Instr) (f : Frame)
    (io : Console) : Outcome Console Step :=
  match i.needs with
  | none => m.perform call loc i f io
  | some c =>
    if m.capabilities.has c then m.perform call loc i f io else .failed (.gap c loc) io

/-- Whether execution changes hands at an address. -/
def stopsAt (m : Machine) (loc : Location) : Bool :=
  m.program.isDispatchPoint m.loopHeadersOnly loc

/-- Starts a function in a new frame at a depth, given how to walk it. -/
def enter (m : Machine) (walk : FuncId → Activation → Outcome Track Exit) (depth : Nat) : Callee :=
  fun func args io =>
    if m.maxCallDepth < depth then .failed (.runtime (.callDepth m.maxCallDepth)) io
    else match m.program.functions[func]? with
      | none => .failed (.program (.unknownFunction func)) io
      | some f =>
        match walk func ⟨0, Frame.ofArgs f.registers args, ⟨io, #[]⟩⟩ with
        | .done e t =>
          match e.kind with
          | .returned v => .done v t.io
          | _ => .failed (.program (.noReturn e.loc)) t.io
        | .failed e t => .failed e t.io
        | .starved => .starved

/-- Notes an observation, if there is one. -/
def note (seen : Array Observation) : Option Observation → Array Observation
  | some s => seen.push s
  | none => seen

/-- Runs a frame of `func` at a depth until it stops, returns or fails. -/
def walk (m : Machine) : (fuel depth : Nat) → (stop : Location → Bool) → (func : FuncId) →
    Activation → Outcome Track Exit
  | 0, _, _, _, _ => .starved
  | n + 1, depth, stop, func, a =>
    let loc : Location := ⟨func, a.pc⟩
    match m.program.instr? loc with
    | none => .failed (.program (.noInstr loc)) a.track
    | some i =>
      if stop loc then .done ⟨loc, .mergePoint, a.frame⟩ a.track
      else
        let callee : Callee := fun g args io =>
          match Word.next? depth with
          | none => .failed .overflow io
          | some d => m.enter (fun g b => walk m n d (fun _ => false) g b) d g args io
        match m.exec callee loc i a.frame a.track.io with
        | .done s io =>
          let track : Track := ⟨io, note a.track.seen s.seen⟩
          match s.flow with
          | .next => walk m n depth stop func ⟨a.pc + 1, s.frame, track⟩
          | .goto pc => walk m n depth stop func ⟨pc, s.frame, track⟩
          | .ret v => .done ⟨loc, .returned v, s.frame⟩ track
        | .failed e io => .failed e ⟨io, a.track.seen⟩
        | .starved => .starved

/-- Runs the top frame from an address until execution changes hands (the
address itself included) or the function returns. -/
def resume (m : Machine) (fuel : Nat) (loc : Location) (f : Frame) (io : Console) :
    Outcome Track Exit :=
  match m.program.functions[loc.func]? with
  | none => .failed (.program (.unknownFunction loc.func)) ⟨io, #[]⟩
  | some fn =>
    if f.size = fn.registers then m.walk fuel 0 m.stopsAt loc.func ⟨loc.pc, f, ⟨io, #[]⟩⟩
    else .failed (.program (.frameSize loc f.size fn.name fn.registers)) ⟨io, #[]⟩

/-- Calls a function at a depth; the top frame has depth zero. -/
def call (m : Machine) (fuel depth : Nat) : Callee :=
  m.enter (fun func a => m.walk fuel depth (fun _ => false) func a) depth

end Machine

/-- A new frame for the entry function. -/
def Program.entryFrame (p : Program) : Frame :=
  match p.functions[p.entry]? with
  | some f => Frame.blank f.registers
  | none => Frame.blank 0

end HotPath
