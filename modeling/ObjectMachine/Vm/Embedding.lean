import ObjectMachine.Vm.Call

/-!
# ObjectMachine.Vm.Embedding

Actions of an embedding program that no bytecode can perform.

* `Vm.setDispatch` — changes the dispatch table of a class.
* `Vm.addRoot`, `Vm.removeRoot`, `Vm.collectFrom` — the collector, without the roots of the task.
* `Vm.newInts`, `Vm.nest` — many objects at once.
* `Vm.varOf` — the variable that a scope binds to a name.
* `Vm.takeNotes` — what finalizer hooks have noted.
-/

namespace ObjectMachine
namespace Vm

/-- Changes the dispatch table of a class. -/
def setDispatch (cls : Ref) (f : Slots → Slots) : Action Unit := do
  let _ ← Action.ofHeap fun h => h.cls cls
  Action.modifyHeap fun h => h.update cls fun p =>
    match p with
    | .cls c => .cls { c with slots := f c.slots }
    | p => p

/-- Makes an object a permanent root. -/
def addRoot (r : Ref) : Action Unit := fun vm =>
  match vm.heap.addRoot r with
  | .ok heap => .ok () { vm with heap := heap }
  | .error e => .error (.fatal e) vm

def removeRoot (r : Ref) : Action Unit :=
  Action.modifyHeap fun h => h.removeRoot r

/-- Collects everything that is not reachable from the permanent roots and the given ones; what the
task itself holds is not among them. -/
def collectFrom (extra : List Ref) : Action Nat := fun vm =>
  match vm.heap.collect extra with
  | .ok (freed, heap) => .ok freed { vm with heap := heap }
  | .error e => .error (.fatal e) vm

/-- The integers from `start` on, as many as asked for, after those in `made`, newest first. -/
def newIntsFrom : Nat → Nat → List Ref → Action (List Ref)
  | _, 0, made => return made.reverse
  | start, n + 1, made => do
    let r ← newLength start
    newIntsFrom (start + 1) n (r :: made)

/-- The integers below `n`. -/
def newInts (n : Nat) : Action (List Ref) :=
  newIntsFrom 0 n []

/-- An object in a number of arrays, one inside the other. -/
def nest (r : Ref) : Nat → Action Ref
  | 0 => return r
  | n + 1 => do
    let a ← newArray [r]
    nest a n

/-- The variable of a name in a frame, a module or a closure. -/
def varOf (scope : Ref) (name : String) : Action (Option Ref) := do
  match ← payload scope with
  | .frame f => return f.var? name
  | .module m => return m.locals.find? name
  | .method m =>
    match m.body with
    | .closure _ _ bindings => return bindings.find? name
    | _ => return none
  | _ => return none

/-- The unit of a code object or of a method with bytecode. -/
def unitOf? (r : Ref) : Action (Option CodeUnit) := do
  match ← payload r with
  | .code c => return some c.unit
  | .method m =>
    match m.body.code? with
    | some code =>
      let unit ← codeUnit code
      return some unit
    | none => return none
  | _ => return none

/-- What finalizer hooks have noted since the last call. -/
def takeNotes : Action (List String) := fun vm =>
  let (notes, heap) := vm.heap.takeNotes
  .ok notes { vm with heap := heap }

end Vm
end ObjectMachine
