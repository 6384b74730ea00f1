import ObjectMachine.CodeUnit
import ObjectMachine.Dispatch
import ObjectMachine.Ref

/-!
# ObjectMachine.Packed

Values on their way between tasks: trees without references into any heap.

A method travels as its code unit and the name of its module, which the receiving task imports for
itself; a task travels by its identity.

* `Packed`, `PackedBody` — the trees.
* `Packed.tasks` — the tasks that a tree names, each as often as it is named.
-/

namespace ObjectMachine

mutual

inductive Packed where
  | nil
  | bool (b : Bool)
  | int (i : Int64)
  | float (x : Float)
  | str (bytes : ByteArray)
  | array (items : List Packed)
  | hash (entries : List (Packed × Packed))
  | error (message : String) (cause : Option Packed) (backtrace : List String)
  | method (name : String) (body : PackedBody) (receiver : Option Packed)
  | task (t : TaskId)

inductive PackedBody where
  | native (f : Native)
  | bytecode (unit : CodeUnit) (module : Option String)
  /-- Captured variables by name; an unbound one has no value. -/
  | closure (unit : CodeUnit) (module : Option String) (bindings : List (String × Option Packed))

end

instance : Inhabited Packed := ⟨.nil⟩

namespace Packed

mutual

def tasks : Packed → List TaskId
  | .array items => tasksOfItems items
  | .hash entries => tasksOfEntries entries
  | .error _ cause _ => tasksOfOption cause
  | .method _ body receiver => tasksOfBody body ++ tasksOfOption receiver
  | .task t => [t]
  | _ => []

def tasksOfBody : PackedBody → List TaskId
  | .closure _ _ bindings => tasksOfBindings bindings
  | _ => []

def tasksOfItems : List Packed → List TaskId
  | [] => []
  | p :: rest => tasks p ++ tasksOfItems rest

def tasksOfEntries : List (Packed × Packed) → List TaskId
  | [] => []
  | (k, v) :: rest => tasks k ++ tasks v ++ tasksOfEntries rest

def tasksOfOption : Option Packed → List TaskId
  | none => []
  | some p => tasks p

def tasksOfBindings : List (String × Option Packed) → List TaskId
  | [] => []
  | (_, v) :: rest => tasksOfOption v ++ tasksOfBindings rest

end

end Packed
end ObjectMachine
