import ObjectMachine.Machine.Instruction

/-!
# ObjectMachine.Machine

The execution of a task, one small step at a time.

A call from bytecode to a bytecode method pushes a frame in the running interpreter loop. Every
other call waits in a stack of continuations: an interpreter loop is itself one of them, so calls
that go through native functions and constructors nest to any depth without recursion here.

* `Kont` — what is waiting for a value.
* `Mode` — what is being done now.
* `Machine` — the state of a task, the continuations, and the mode.
* `Machine.step` — one step.
* `Machine.run` — steps until the task is done, has to wait, or has failed for good.
* `Machine.resume` — goes on after a request was answered.
-/

namespace ObjectMachine

/-- What is waiting for the value of a call, or for its failure. -/
inductive Kont where
  /-- An interpreter loop, which ends when the frames are down to `floor`. A failure unwinds to the
  heights `floor` and `base`. -/
  | loop (floor base : Nat)
  /-- An instruction whose result takes the place of the top operands. -/
  | operands (count : Nat)
  /-- A constructor: the result is the object, which `init` has filled. -/
  | fill (obj : Ref)
  /-- Tells success from failure. -/
  | attempt
  /-- Turns any failure into a raised value. -/
  | guard
deriving DecidableEq, Repr

inductive Mode where
  /-- The innermost interpreter loop goes on. -/
  | running
  | calling (callee : Ref) (args : List Ref)
  | constructing (cls : Ref) (args : List Ref)
  | returning (value : Ref)
  | raising (e : Error)
  | waiting (request : Request)

structure Machine where
  vm : Vm
  konts : List Kont
  mode : Mode

/-- How a step ends. -/
inductive Outcome where
  | next (m : Machine)
  /-- The call is over. -/
  | done (vm : Vm) (result : Except Error Ref)
  /-- Nothing happens until the request is answered. -/
  | blocked (m : Machine) (request : Request)
  | fatal (vm : Vm) (f : Fatal)
  | crashed (vm : Vm)

/-- The state in which an outcome leaves the task. -/
def Outcome.vm : Outcome → Vm
  | .next m | .blocked m _ => m.vm
  | .done vm _ | .fatal vm _ | .crashed vm => vm

namespace Machine

/-- Goes on with what an action answers; an error it raises goes to the waiting continuations. -/
def continueWith {α : Type} (a : Action α) (vm : Vm) (konts : List Kont)
    (f : α → Vm → Machine) : Outcome :=
  match a vm with
  | .ok x vm => .next (f x vm)
  | .error (.raised e) vm => .next ⟨vm, konts, .raising e⟩
  | .error (.fatal e) vm => .fatal vm e
  | .error .crashed vm => .crashed vm

/-- Goes on as a reply says. -/
def ofReply (konts : List Kont) (reply : Reply) (vm : Vm) : Machine :=
  match reply with
  | .value r => ⟨vm, konts, .returning r⟩
  | .call callee args => ⟨vm, konts, .calling callee args⟩
  | .attempt callee args => ⟨vm, .attempt :: konts, .calling callee args⟩
  | .construct cls args => ⟨vm, konts, .constructing cls args⟩
  | .fill obj init args =>
    ⟨{ vm with temps := init :: vm.temps }, .fill obj :: konts, .calling init args⟩
  | .entered floor base => ⟨vm, .loop floor base :: konts, .running⟩
  | .wait request => ⟨vm, konts, .waiting request⟩

/-- One instruction of the innermost loop, which is the first of the continuations. -/
def stepRunning (vm : Vm) : List Kont → Outcome
  | .loop floor base :: outer =>
    continueWith (Vm.stepLoop floor) vm (.loop floor base :: outer) fun flow vm =>
      match flow with
      | .next => ⟨vm, .loop floor base :: outer, .running⟩
      | .leave v => ⟨vm, outer, .returning v⟩
      | .call callee args n => ⟨vm, .operands n :: .loop floor base :: outer, .calling callee args⟩
      | .wait request n => ⟨vm, .operands n :: .loop floor base :: outer, .waiting request⟩
  | _ => .fatal vm .noActiveFrame

/-- Hands a value to what waits for it. -/
def stepReturning (v : Ref) (vm : Vm) : List Kont → Outcome
  | [] => .done vm (.ok v)
  | .loop _ _ :: _ => .fatal vm .noActiveFrame
  | .operands n :: konts =>
    continueWith (Vm.replace n v) vm konts fun _ vm => ⟨vm, konts, .running⟩
  | .fill obj :: konts => .next ⟨{ vm with temps := vm.temps.tail }, konts, .returning obj⟩
  | .attempt :: konts =>
    continueWith (do Vm.newArray [← Vm.bool true, v]) vm konts fun r vm =>
      ⟨vm, konts, .returning r⟩
  | .guard :: konts => .next ⟨vm, konts, .returning v⟩

/-- Writes what a loop ends with on the trace. -/
def traceUnwinding (v : Ref) (floor : Nat) : Action Unit := do
  if (← get).config.trace.vm then
    let text ← Vm.display v
    Vm.trace Channels.vm "vm" fun _ => s!"unwinding to depth {floor}: {text}"

/-- Ends a loop with a failure: its frames and their operands go away. The value that is raised is
made first, so that it knows the frames. -/
def unwind (e : Error) (floor base : Nat) : Action Ref := do
  let v ← Vm.raisedValue e
  traceUnwinding v floor
  modify fun vm =>
    { vm with
      frames := vm.frames.shrink floor
      stack := vm.stack.shrink base
      loops := vm.loops - 1 }
  return v

/-- Hands a failure to what waits for a value. -/
def stepRaising (e : Error) (vm : Vm) : List Kont → Outcome
  | [] => .done vm (.error e)
  | .loop floor base :: konts =>
    continueWith (unwind e floor base) vm konts fun v vm => ⟨vm, konts, .raising (.panic v)⟩
  | .operands _ :: konts => .next ⟨vm, konts, .raising e⟩
  | .fill _ :: konts => .next ⟨{ vm with temps := vm.temps.tail }, konts, .raising e⟩
  | .attempt :: konts =>
    continueWith (do
        let v ← Vm.raisedValue e
        Vm.newArray [← Vm.bool false, v]) vm konts fun r vm =>
      ⟨vm, konts, .returning r⟩
  | .guard :: konts =>
    continueWith (Vm.raisedValue e) vm konts fun v vm => ⟨vm, konts, .raising (.panic v)⟩

/-- One step of a task. -/
def step (m : Machine) : Outcome :=
  match m.mode with
  | .running => stepRunning m.vm m.konts
  | .calling callee args =>
    continueWith (Vm.call callee args) m.vm m.konts (ofReply m.konts)
  | .constructing cls args =>
    continueWith (Vm.construct cls args) m.vm m.konts (ofReply m.konts)
  | .returning v => stepReturning v m.vm m.konts
  | .raising e => stepRaising e m.vm m.konts
  | .waiting request => .blocked m request

/-- Steps until one does not lead to a next state. -/
def run : Nat → Machine → Outcome
  | 0, m => .next m
  | fuel + 1, m =>
    match m.step with
    | .next m => run fuel m
    | o => o

/-- What a task is told about its request. -/
inductive Answer where
  | spawned (t : TaskId)
  | sent
  | message (p : Packed)
  | joined (p : Packed)

/-- The value that an answer stands for. -/
def answerValue : Answer → Action Ref
  | .spawned t => Vm.newTask t
  | .sent => Vm.nil
  | .message p => Vm.unpack p
  | .joined p => Vm.unpack p

/-- Goes on after a request was answered. -/
def resume (m : Machine) (a : Answer) : Outcome :=
  continueWith (answerValue a) m.vm m.konts fun r vm => ⟨vm, m.konts, .returning r⟩

end Machine
end ObjectMachine
