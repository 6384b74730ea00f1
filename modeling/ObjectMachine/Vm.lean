import ObjectMachine.Heap.Collect
import ObjectMachine.Heap.Compare
import ObjectMachine.Heap.Display
import ObjectMachine.Packed
import ObjectMachine.Registry

/-!
# ObjectMachine.Vm

The state of one task, and the actions on it.

* `Vm` — the heap, the operand stack, the active frames, and the namespaces.
* `Action` — a computation on that state which may stop. What it did before it stopped stays done.
* `Action.ofHeap` — a question to the heap as an action.
* `Vm.trace` — writes a line on a trace channel.
-/

namespace ObjectMachine

/-- A frame that is running: the heap objects it runs with, and where it stands. -/
structure ActiveFrame where
  frame : Ref
  method : Ref
  code : Ref
  module : Option Ref
  unit : CodeUnit
  /-- The address of the next instruction. -/
  ip : Nat
  /-- The height of the operand stack when the frame was entered. -/
  base : Nat
deriving Inhabited

structure Vm where
  heap : Heap
  task : TaskId
  config : Config
  registry : Registry
  /-- The operand stack, top last. -/
  stack : Array Ref := #[]
  /-- The active frames, innermost last. -/
  frames : Array ActiveFrame := #[]
  /-- Roots for values that only a running constructor or the embedding program holds, newest
  first. -/
  temps : List Ref := []
  classes : NameMap Ref := {}
  globals : NameMap Ref := {}
  modules : NameMap Ref := {}
  /-- Instructions begun so far. -/
  ticks : Nat := 0
  /-- Interpreter loops that are running. -/
  loops : Nat := 0
  /-- What was printed. -/
  output : String := ""
  /-- The trace lines, newest first. -/
  log : List String := []
deriving Inhabited

/-- A computation of a task. -/
abbrev Action := EStateM Stop Vm

namespace Action

/-- Fails with an error that a program can recover from. -/
def raise {α : Type} (e : Error) : Action α :=
  throw (.raised e)

/-- Ends the whole system. -/
def fatal {α : Type} (f : Fatal) : Action α :=
  throw (.fatal f)

/-- Asks the heap. -/
def ofHeap {α : Type} (f : Heap → Except Fatal α) : Action α := fun vm =>
  match f vm.heap with
  | .ok a => .ok a vm
  | .error e => .error (.fatal e) vm

/-- Changes the heap. -/
def modifyHeap (f : Heap → Heap) : Action Unit :=
  modify fun vm => { vm with heap := f vm.heap }

end Action

namespace Vm

/-- Adds a line to the trace if its channel is on. -/
def trace (on : Channels → Bool) (channel : String) (text : Vm → String) : Action Unit :=
  modify fun vm =>
    if on vm.config.trace then
      { vm with log := ("[sable:" ++ channel ++ "] " ++ text vm) :: vm.log }
    else vm

/-- A new object. -/
def alloc (cls : Ref) (p : Payload) : Action Ref := fun vm =>
  match vm.heap.checkOwn cls with
  | .error e => .error (.fatal e) vm
  | .ok () =>
    let (r, heap) := vm.heap.place ⟨cls, p⟩
    .ok r { vm with heap := heap }

def payload (r : Ref) : Action Payload :=
  Action.ofHeap fun h => h.payload r

def className (r : Ref) : Action String :=
  Action.ofHeap fun h => h.className r

/-- The failure of an operation that wants another kind of object. -/
def mismatch {α : Type} (expected : String) (found : Ref) : Action α := do
  let c ← className found
  Action.raise (.typeMismatch expected c)

/-- The active frames from the innermost outwards, each with the instruction it is at. -/
def backtrace (vm : Vm) : List String :=
  vm.frames.toList.reverse.map fun f => f.unit.name ++ " @" ++ toString (f.ip - 1)

/-- The number of active frames. -/
def depth (vm : Vm) : Nat :=
  vm.frames.size

/-- Keeps an object alive until the matching `popTemp`. -/
def pushTemp (r : Ref) : Action Unit :=
  modify fun vm => { vm with temps := r :: vm.temps }

def popTemp : Action Unit :=
  modify fun vm => { vm with temps := vm.temps.tail }

/-- What was printed since the last call. -/
def takeOutput : Action String := do
  let text := (← get).output
  modify fun vm => { vm with output := "" }
  return text

/-- The references that keep objects alive beside the roots of the heap. -/
def roots (vm : Vm) : List Ref :=
  vm.stack.toList
    ++ (vm.frames.toList.flatMap fun f => f.frame :: f.method :: f.code :: f.module.toList)
    ++ vm.temps ++ vm.classes.values ++ vm.globals.values ++ vm.modules.values

/-- Collects garbage; answers how many objects were freed. -/
def collect : Action Nat := fun vm =>
  match vm.heap.collect vm.roots with
  | .error e => .error (.fatal e) vm
  | .ok (freed, heap) =>
    (do
      trace Channels.gc "gc" fun vm =>
        s!"heap {vm.heap.id}: freed {freed}, live {vm.heap.live}, next threshold {vm.heap.threshold}"
      return freed) { vm with heap := heap }

end Vm
end ObjectMachine
