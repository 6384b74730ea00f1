import ObjectMachine.CodeUnit
import ObjectMachine.Dispatch
import ObjectMachine.NameMap
import ObjectMachine.Ref

/-!
# ObjectMachine.Object

Heap objects: a class and a payload.

* `Payload` — the kinds of objects and what each of them holds.
* `Class`, `HashTable`, `Method`, `Code`, `Frame`, `Module`, `ErrorInfo` — the larger payloads.
* `Payload.kind` — the name of a kind in reports.
* `MarkFn.targets` — the references that a tracing function finds in a payload.
* `Payload.refs` — all references of a payload.
* `Payload.setItems`, `Payload.addMethod`, … — a payload with other contents.
-/

namespace ObjectMachine

/-- A class: its name, super class, number of instance slots, dispatch table and methods. -/
structure Class where
  name : String
  super : Option Ref
  size : Nat
  slots : Slots
  methods : NameMap Ref := {}
deriving Inhabited

/-- An association list in the order of insertion. -/
structure HashTable where
  entries : Array (Ref × Ref) := #[]
deriving Inhabited

namespace HashTable

def keys (t : HashTable) : Array Ref := t.entries.map Prod.fst

def values (t : HashTable) : Array Ref := t.entries.map Prod.snd

def size (t : HashTable) : Nat := t.entries.size

end HashTable

/-- What a method runs. -/
inductive Body where
  | native (f : Native)
  /-- A loaded unit whose globals are looked up in `module` first. -/
  | bytecode (code : Ref) (module : Option Ref)
  /-- A loaded unit with variables captured by name. -/
  | closure (code : Ref) (module : Option Ref) (bindings : NameMap Ref)
deriving Inhabited

/-- A method, with the receiver that is passed ahead of its arguments if it is bound. -/
structure Method where
  name : String
  body : Body
  receiver : Option Ref := none
deriving Inhabited

def Body.code? : Body → Option Ref
  | .native _ => none
  | .bytecode code _ => some code
  | .closure code _ _ => some code

def Body.module? : Body → Option Ref
  | .native _ => none
  | .bytecode _ module => module
  | .closure _ module _ => module

/-- A code unit whose constants are objects of this heap. -/
structure Code where
  unit : CodeUnit
  consts : Array Ref
deriving Inhabited

/-- An activation record: one variable for each local, and the captured variables. -/
structure Frame where
  method : Ref
  locals : NameMap Ref
  free : NameMap Ref
deriving Inhabited

/-- The variable of a name: a local, or else a captured one. -/
def Frame.var? (f : Frame) (name : String) : Option Ref :=
  match f.locals.find? name with
  | some v => some v
  | none => f.free.find? name

/-- A module of this task: a name and a namespace of variables. -/
structure Module where
  name : String
  locals : NameMap Ref
deriving Inhabited

/-- What an error says, what caused it, and where it was made, innermost frame first. -/
structure ErrorInfo where
  message : String
  cause : Option Ref
  backtrace : List String
deriving Inhabited

/-- A task object; `current` says that it names the task that owns the heap. -/
structure TaskRef where
  task : TaskId
  current : Bool
deriving Inhabited

inductive Payload where
  /-- An instance of a user class, by its slots. -/
  | object (slots : Array Ref)
  | cls (c : Class)
  | nil
  | bool (b : Bool)
  | int (i : Int64)
  | float (x : Float)
  | str (bytes : ByteArray)
  | array (items : Array Ref)
  | hash (table : HashTable)
  | method (m : Method)
  | code (c : Code)
  | frame (f : Frame)
  | module (m : Module)
  | task (t : TaskRef)
  /-- A variable, unbound if it holds nothing. -/
  | var (value : Option Ref)
  | error (e : ErrorInfo)
deriving Inhabited

/-- An object: its class and its payload. -/
structure Obj where
  cls : Ref
  payload : Payload
deriving Inhabited

namespace Payload

/-- The name of the kind. -/
def kind : Payload → String
  | object _ => "object"
  | cls _ => "class"
  | nil => "nil"
  | bool _ => "bool"
  | int _ => "int"
  | float _ => "float"
  | str _ => "str"
  | array _ => "array"
  | hash _ => "hash"
  | method _ => "method"
  | code _ => "code"
  | frame _ => "frame"
  | module _ => "module"
  | task _ => "task"
  | var _ => "var"
  | error _ => "error"

/-- The kind, with the value of an integer or the length of a sequence. -/
def describe : Payload → String
  | int i => s!"int {i.toInt}"
  | object slots => s!"object {slots.size}"
  | array items => s!"array {items.size}"
  | p => p.kind

end Payload

/-- The references that a tracing function reports; none if the payload is of another kind. -/
def MarkFn.targets : MarkFn → Payload → List Ref
  | .object, .object slots => slots.toList
  | .cls, .cls c => c.super.toList ++ c.methods.values
  | .array, .array items => items.toList
  | .hash, .hash t => t.keys.toList ++ t.values.toList
  | .method, .method m =>
    m.receiver.toList ++
      match m.body with
      | .native _ => []
      | .bytecode c scope => c :: scope.toList
      | .closure c scope bindings => c :: (scope.toList ++ bindings.values)
  | .code, .code c => c.consts.toList
  | .frame, .frame f => f.method :: (f.locals.values ++ f.free.values)
  | .module, .module m => m.locals.values
  | .var, .var v => v.toList
  | .error, .error e => e.cause.toList
  | _, _ => []

namespace Payload

/-- The tracing function for the kind; `none` for kinds without references. -/
def markFn? : Payload → Option MarkFn
  | object _ => some .object
  | cls _ => some .cls
  | array _ => some .array
  | hash _ => some .hash
  | method _ => some .method
  | code _ => some .code
  | frame _ => some .frame
  | module _ => some .module
  | var _ => some .var
  | error _ => some .error
  | nil | bool _ | int _ | float _ | str _ | task _ => none

/-- Every reference that a payload holds. -/
def refs (p : Payload) : List Ref :=
  match p.markFn? with
  | some f => f.targets p
  | none => []

/-! Other contents. A payload of another kind than the contents stays as it is. -/

def setSlots (slots : Array Ref) : Payload → Payload
  | object _ => object slots
  | p => p

def setItems (items : Array Ref) : Payload → Payload
  | array _ => array items
  | p => p

def setTable (t : HashTable) : Payload → Payload
  | hash _ => hash t
  | p => p

def setValue (value : Ref) : Payload → Payload
  | var _ => var (some value)
  | p => p

/-- Puts a method in the table of a class. -/
def addMethod (name : String) (m : Ref) : Payload → Payload
  | cls c => cls { c with methods := c.methods.insert name m }
  | p => p

/-- Binds a name in the namespace of a module. -/
def addLocal (name : String) (var : Ref) : Payload → Payload
  | module m => module { m with locals := m.locals.insert name var }
  | p => p

end Payload
end ObjectMachine
