import ObjectMachine.Vm.Make

/-!
# ObjectMachine.Vm.Frames

Entering and leaving bytecode methods.

A frame has one variable for each local of its unit. A local that the method's closure captured
shares the captured variable; the other captured names are the frame's free variables.

* `Vm.callee` — what is needed of a method to run it.
* `Vm.buildFrame` — a frame with its variables, not yet running.
* `Vm.activate` — a frame with its parameters bound, a bound receiver first.
* `Vm.enter` — pushes such a frame.
* `Vm.enterLoop` — the same for a call from outside the running interpreter loop.
-/

namespace ObjectMachine
namespace Vm

/-- What a method runs with. -/
structure Callee where
  code : Ref
  module : Option Ref
  receiver : Option Ref
  bindings : NameMap Ref

def callee (method : Ref) : Action Callee := do
  match ← payload method with
  | .method m =>
    match m.body with
    | .native _ => Action.raise (.typeMismatch "bytecode method" ("native method " ++ m.name))
    | .bytecode code module => return ⟨code, module, m.receiver, {}⟩
    | .closure code module bindings => return ⟨code, module, m.receiver, bindings⟩
  | _ => mismatch "method" method

/-- Whether an object is a method with a bytecode body. -/
def isBytecode (r : Ref) : Action Bool := do
  match ← payload r with
  | .method m =>
    match m.body with
    | .native _ => return false
    | _ => return true
  | _ => return false

/-- A variable for each local: the captured one of its name, or a new unbound one. -/
def makeLocals (bindings : NameMap Ref) : List String → NameMap Ref → Action (NameMap Ref)
  | [], locals => return locals
  | name :: rest, locals => do
    let var ←
      match bindings.find? name with
      | some v => pure v
      | none => newVar none
    makeLocals bindings rest (locals.insert name var)

/-- The captured variables that are not locals. -/
def freeVars (bindings locals : NameMap Ref) : List String → NameMap Ref → NameMap Ref
  | [], free => free
  | name :: rest, free =>
    if locals.contains name then freeVars bindings locals rest free
    else
      match bindings.find? name with
      | some v => freeVars bindings locals rest (free.insert name v)
      | none => freeVars bindings locals rest free

/-- A frame object, and the variables of its locals. -/
def allocFrame (method : Ref) (unit : CodeUnit) (bindings : NameMap Ref) :
    Action (Ref × NameMap Ref) := do
  let locals ← makeLocals bindings unit.locals {}
  let free := freeVars bindings locals unit.freevars {}
  let frame ← new .frame (.frame ⟨method, locals, free⟩)
  return (frame, locals)

/-- A frame for a method, with every local unbound except for captured ones. -/
def buildFrame (method : Ref) : Action Ref := do
  let c ← callee method
  let unit ← codeUnit c.code
  let (frame, _) ← allocFrame method unit c.bindings
  return frame

/-- Binds parameters to values, in order. -/
def bindParams (locals : NameMap Ref) : List String → List Ref → Action Unit
  | name :: names, value :: values => do
    match locals.find? name with
    | some var => writeVar var value
    | none => pure ()
    bindParams locals names values
  | _, _ => return ()

/-- The frames, and the interpreter loops nested in the outermost one. -/
def callDepth (vm : Vm) : Nat :=
  vm.frames.size + (vm.loops - 1)

/-- A frame for a bytecode method with its parameters bound, to be put on an empty operand stack. -/
def activate (method : Ref) (args : List Ref) : Action ActiveFrame := do
  let vm ← get
  if vm.callDepth ≥ vm.config.maxFrames then Action.raise (.stackOverflow vm.frames.size)
  let c ← callee method
  let unit ← codeUnit c.code
  let values := c.receiver.toList ++ args
  if values.length ≠ unit.arity.toNat then
    Action.raise (.arity unit.name unit.arity.toNat values.length)
  let (frame, locals) ← allocFrame method unit c.bindings
  bindParams locals unit.params values
  trace Channels.vm "vm" fun vm => s!"enter {unit.name} (depth {vm.frames.size + 1})"
  return { frame := frame, method := method, code := c.code, module := c.module, unit := unit
           ip := 0, base := 0 }

/-- Pushes a frame for a bytecode method on the operands that there are. -/
def enter (method : Ref) (args : List Ref) : Action Unit := do
  let f ← activate method args
  modify fun vm => { vm with frames := vm.frames.push { f with base := vm.stack.size } }

/-- Enters a method in an interpreter loop of its own. Answers the heights of the frame stack and
of the operand stack below the new frame. -/
def enterLoop (method : Ref) (args : List Ref) : Action (Nat × Nat) := do
  let vm ← get
  if vm.loops ≥ vm.config.maxNativeDepth then Action.raise (.stackOverflow vm.frames.size)
  let floor := vm.frames.size
  let base := vm.stack.size
  enter method args
  modify fun vm => { vm with loops := vm.loops + 1 }
  return (floor, base)

end Vm
end ObjectMachine
