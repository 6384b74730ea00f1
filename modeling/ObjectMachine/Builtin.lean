import ObjectMachine.Heap
import ObjectMachine.Vm

/-!
# ObjectMachine.Builtin

The built-in classes and singletons, which stand at the same places in every heap.

`Class` is its own class. `Object` is the root of all other built-in classes; it supplies
construction of plain instances, look-up of methods as attributes, truth, and tracing of instance
slots. It has no arithmetic and no comparison.

* `Builtin` — the built-in classes.
* `Builtin.ref` — where a class stands.
* `Builtin.slots`, `Builtin.methods` — what a class can do.
* `Vm.boot` — the state of a new task.
-/

namespace ObjectMachine

inductive Builtin where
  | cls
  | object
  | nil
  | bool
  | int
  | float
  | str
  | array
  | hash
  | method
  | code
  | frame
  | module
  | task
  | var
  | error
deriving DecidableEq, Repr

namespace Builtin

/-- The classes in the order of their cells. -/
def all : List Builtin :=
  [cls, object, nil, bool, int, float, str, array, hash, method, code, frame, module, task, var,
   error]

/-- The classes in the order in which they are registered by name: `Object` comes first. -/
def registered : List Builtin :=
  [object, cls, nil, bool, int, float, str, array, hash, method, code, frame, module, task, var,
   error]

/-- The cell of a class. -/
def cell : Builtin → Nat
  | cls => 0
  | object => 1
  | nil => 2
  | bool => 3
  | int => 4
  | float => 5
  | str => 6
  | array => 7
  | hash => 8
  | method => 9
  | code => 10
  | frame => 11
  | module => 12
  | task => 13
  | var => 14
  | error => 15

/-- The class in a heap. -/
def ref (k : Builtin) (heap : Nat) : Ref :=
  ⟨heap, k.cell, 0⟩

def name : Builtin → String
  | cls => "Class"
  | object => "Object"
  | nil => "Nil"
  | bool => "Bool"
  | int => "Int"
  | float => "Float"
  | str => "Str"
  | array => "Array"
  | hash => "Hash"
  | method => "Method"
  | code => "Code"
  | frame => "Frame"
  | module => "Module"
  | task => "Task"
  | var => "Var"
  | error => "Error"

/-- The arithmetic of both kinds of numbers. -/
def withArithmetic (s : Slots) : Slots :=
  { s with
    cmp := some .number
    add := some (.number .add)
    sub := some (.number .sub)
    mul := some (.number .mul)
    div := some (.number .div) }

/-- The dispatch table of a class. -/
def slots : Builtin → Slots
  | cls =>
    { init := some .cls, str := some .cls, call := some .cls, getAttr := some .cls
      mark := some .cls }
  | object =>
    { init := some .object, str := some .object, getAttr := some .object
      nonzero := some (.always true), mark := some .object }
  | nil => { init := some .nil, str := some .nil, nonzero := some (.always false) }
  | bool => { init := some .bool, str := some .bool, cmp := some .bool, nonzero := some .bool }
  | int => withArithmetic { init := some .int, str := some .int, nonzero := some .int }
  | float => withArithmetic { init := some .float, str := some .float, nonzero := some .float }
  | str =>
    { init := some .str, str := some .str, cmp := some .bytes, add := some .strAdd
      mul := some .strMul, getItem := some .str, nonzero := some .str }
  | array =>
    { init := some .array, str := some .array, cmp := some .array, add := some .arrayAdd
      getItem := some .array, nonzero := some .array, mark := some .array }
  | hash =>
    { init := some .hash, str := some .hash, cmp := some .hash, getItem := some .hash
      nonzero := some .hash, mark := some .hash }
  | method =>
    { init := some .refuse, str := some .method, call := some .method, mark := some .method }
  | code => { init := some .refuse, str := some .code, mark := some .code }
  | frame => { init := some .refuse, str := some .frame, mark := some .frame }
  | module =>
    { init := some .refuse, str := some .module, getAttr := some .module, mark := some .module }
  | task => { init := some .refuse, str := some .task, cmp := some .task, dtor := some .task }
  | var => { init := some .refuse, str := some .var, mark := some .var }
  | error =>
    { init := some .error, str := some .error, getAttr := some .error, mark := some .error }

/-- The native methods of a class, in the order of their creation. -/
def methods : Builtin → List (String × Native)
  | str => [("len", .strLen)]
  | array => [("push", .arrayPush), ("pop", .arrayPop), ("len", .arrayLen)]
  | hash => [("set", .hashSet), ("get", .hashGet), ("len", .hashLen), ("keys", .hashKeys)]
  | task => [("send", .taskSend), ("join", .taskJoin), ("id", .taskNumber)]
  | _ => []

/-- The super class: `Object` for every class but itself. -/
def super : Builtin → Option Builtin
  | object => none
  | _ => some object

/-- The class that a heap holds in the beginning. -/
def initial (k : Builtin) (heap : Nat) : Class :=
  { name := k.name, super := k.super.map (ref · heap), size := 0, slots := k.slots }

/-- The class of the objects of a kind that are made without naming a class; instances of user
classes have none. -/
def ofPayload? : Payload → Option Builtin
  | .object _ => none
  | .cls _ => some cls
  | .nil => some nil
  | .bool _ => some bool
  | .int _ => some int
  | .float _ => some float
  | .str _ => some str
  | .array _ => some array
  | .hash _ => some hash
  | .method _ => some method
  | .code _ => some code
  | .frame _ => some frame
  | .module _ => some module
  | .task _ => some task
  | .var _ => some var
  | .error _ => some error

end Builtin

/-- The one nil of a heap. -/
def nilRef (heap : Nat) : Ref := ⟨heap, 16, 0⟩

/-- The two truth values of a heap. -/
def boolRef (heap : Nat) (b : Bool) : Ref := ⟨heap, if b then 17 else 18, 0⟩

namespace Heap

/-- Puts an object of a built-in class in the heap. -/
def placeBuiltin (h : Heap) (k : Builtin) (p : Payload) : Ref × Heap :=
  h.place ⟨k.ref h.id, p⟩

/-- The roots of every heap: the built-in classes and the singletons. -/
def permanentRoots (id : Nat) : List Ref :=
  boolRef id false :: boolRef id true :: nilRef id ::
    (Builtin.registered.map fun k => k.ref id).reverse

/-- The built-in classes and singletons, in the order of their cells. -/
def bootObjects (id : Nat) : List Obj :=
  (Builtin.all.map fun k => ⟨Builtin.cls.ref id, .cls (k.initial id)⟩) ++
    [⟨Builtin.nil.ref id, .nil⟩, ⟨Builtin.bool.ref id, .bool true⟩,
      ⟨Builtin.bool.ref id, .bool false⟩]

/-- A heap with the built-in classes and singletons, all of them roots. -/
def boot (id : Nat) (config : Config) : Heap :=
  let h := (bootObjects id).foldl (fun h o => (h.place o).2) (empty id config)
  { h with roots := permanentRoots id }

end Heap

namespace Vm

/-- Gives a built-in class a native method. -/
def bootMethod (vm : Vm) (k : Builtin) (name : String) (f : Native) : Vm :=
  let (m, heap) := vm.heap.placeBuiltin .method (.method { name := name, body := .native f })
  { vm with heap := heap.update (k.ref heap.id) (Payload.addMethod name m) }

/-- Makes a native function a global. -/
def bootGlobal (vm : Vm) (name : String) (f : Native) : Vm :=
  let (m, heap) := vm.heap.placeBuiltin .method (.method { name := name, body := .native f })
  { vm with heap := heap, globals := vm.globals.insert name m }

/-- The state of a new task: the built-in classes with their methods, and the global functions. -/
def boot (registry : Registry) (config : Config) (heap : Nat) (task : TaskId) : Vm :=
  let vm : Vm :=
    { heap := Heap.boot heap config
      task := task
      config := config
      registry := registry
      classes := ⟨Builtin.registered.map fun k => (k.name, k.ref heap)⟩ }
  let vm := Builtin.all.foldl
    (fun vm k => k.methods.foldl (fun vm m => vm.bootMethod k m.1 m.2) vm) vm
  let vm := Native.globals.foldl (fun vm g => vm.bootGlobal g.1 g.2) vm
  if config.trace.task then
    { vm with log := [s!"[sable:task] task {task.number} heap {heap} ready"] }
  else vm

end Vm
end ObjectMachine
