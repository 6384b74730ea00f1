import ObjectMachine.Builtin

/-!
# ObjectMachine.Vm.Make

Making values, classes, names and modules.

* `Vm.newInt`, `Vm.newStr`, … — new objects of the built-in classes.
* `Vm.hashSet` — puts an entry in a hash.
* `Vm.bind` — a copy of a method that carries its receiver.
* `Vm.loadCode` — a code unit with its constants made into objects.
* `Vm.classNew`, `Vm.defineMethod` — classes.
* `Vm.importModule` — the task's own copy of a registered module, made once.
* `Vm.readVar`, `Vm.writeVar` — variables.
-/

namespace ObjectMachine
namespace Vm

/-- A new object of a built-in class. -/
def new (k : Builtin) (p : Payload) : Action Ref := fun vm =>
  alloc (k.ref vm.heap.id) p vm

def nil : Action Ref := fun vm => .ok (nilRef vm.heap.id) vm

def bool (b : Bool) : Action Ref := fun vm => .ok (boolRef vm.heap.id b) vm

def newInt (i : Int64) : Action Ref := new .int (.int i)

def newFloat (x : Float) : Action Ref := new .float (.float x)

def newBytes (b : ByteArray) : Action Ref := new .str (.str b)

def newStr (s : String) : Action Ref := newBytes s.toUTF8

def newArray (items : List Ref) : Action Ref := new .array (.array items.toArray)

def newHash : Action Ref := new .hash (.hash {})

def newVar (value : Option Ref) : Action Ref := new .var (.var value)

/-- A length as an integer object. -/
def newLength (n : Nat) : Action Ref := newInt (Int64.ofNat n)

/-- Several strings. -/
def newStrs : List String → Action (List Ref)
  | [] => return []
  | s :: rest => do
    let r ← newStr s
    let rs ← newStrs rest
    return r :: rs

/-- Puts an entry in a hash, in the place of one with an equal key or at the end. -/
def hashSet (hash key value : Ref) : Action Unit := do
  match ← payload hash with
  | .hash t =>
    let entries ←
      match ← Action.ofHeap fun h => h.position? t key with
      | some i => pure (t.entries.modify i fun e => (e.1, value))
      | none => pure (t.entries.push (key, value))
    Action.modifyHeap fun h => h.update hash (Payload.setTable ⟨entries⟩)
  | _ => mismatch "hash" hash

/-- An error object with a given backtrace. -/
def allocError (message : String) (cause : Option Ref) (trace : List String) : Action Ref :=
  new .error (.error ⟨message, cause, trace⟩)

/-- An error object made where the task stands. -/
def newError (message : String) (cause : Option Ref) : Action Ref := fun vm =>
  allocError message cause vm.backtrace vm

def newMethod (name : String) (body : Body) (receiver : Option Ref) : Action Ref :=
  new .method (.method ⟨name, body, receiver⟩)

def newNative (name : String) (f : Native) : Action Ref :=
  newMethod name (.native f) none

/-- A copy of a method with another receiver. -/
def bind (method receiver : Ref) : Action Ref := do
  match ← payload method with
  | .method m => new .method (.method { m with receiver := some receiver })
  | p => Action.fatal (.bindsNoMethod method p.kind)

/-- An object that names a task. -/
def newTask (t : TaskId) : Action Ref := fun vm =>
  new .task (.task ⟨t, t == vm.task⟩) vm

/-- An object that names the running task. -/
def currentTask : Action Ref := fun vm =>
  newTask vm.task vm

mutual

/-- Loads a unit: its constants become objects, inner units first. -/
def loadCode : CodeUnit → Action Ref
  | ⟨name, code, consts, names, locals, freevars, arity⟩ => do
    let refs ← loadConstants consts
    new .code (.code ⟨⟨name, code, consts, names, locals, freevars, arity⟩, refs.toArray⟩)

def loadConstant : Constant → Action Ref
  | .nil => nil
  | .int i => newInt i
  | .float x => newFloat x
  | .str s => newStr s
  | .code u => loadCode u

def loadConstants : List Constant → Action (List Ref)
  | [] => return []
  | c :: rest => do
    let r ← loadConstant c
    let rs ← loadConstants rest
    return r :: rs

end

/-- A method over a unit, with the module in which it looks up globals first. -/
def newBytecodeMethod (unit : CodeUnit) (module : Option Ref) : Action Ref := do
  let code ← loadCode unit
  newMethod unit.name (.bytecode code module) none

/-- The unit of a code object. -/
def codeUnit (code : Ref) : Action CodeUnit := do
  match ← payload code with
  | .code c => return c.unit
  | p => Action.fatal (.wrongKind code p.kind "code")

/-- Makes a class object and registers its name. -/
def addClass (c : Class) : Action Ref := do
  let r ← new .cls (.cls c)
  modify fun vm => { vm with classes := vm.classes.insert c.name r }
  trace Channels.vm "vm" fun _ => s!"class {c.name} defined"
  return r

/-- Makes a class. Of the super class's own slots it takes over the display function; all others it
finds along the chain. -/
def classNew (name : String) (super : Option Ref) (size : Nat) : Action Ref := do
  match super with
  | none => addClass { name := name, super := none, size := size, slots := {} }
  | some s =>
    let c ← Action.ofHeap fun h => h.cls s
    addClass { name := name, super := some s, size := size, slots := { str := c.slots.str } }

/-- Puts a method in the table of a class. -/
def defineMethod (cls : Ref) (name : String) (method : Ref) : Action Unit := do
  let _ ← Action.ofHeap fun h => h.cls cls
  Action.modifyHeap fun h => h.update cls (Payload.addMethod name method)

/-- Gives a class a native method. -/
def defineNative (cls : Ref) (name : String) (f : Native) : Action Unit := do
  let m ← newNative name f
  defineMethod cls name m

def setGlobal (name : String) (value : Ref) : Action Unit :=
  modify fun vm => { vm with globals := vm.globals.insert name value }

/-- What a variable holds; `none` if it is unbound. -/
def readVar (var : Ref) : Action (Option Ref) := do
  match ← payload var with
  | .var v => return v
  | p => Action.fatal (.wrongKind var p.kind "a var")

def writeVar (var value : Ref) : Action Unit := do
  match ← payload var with
  | .var _ => Action.modifyHeap fun h => h.update var (Payload.setValue value)
  | p => Action.fatal (.wrongKind var p.kind "a var")

/-- The method of a member. -/
def newMember (module : Ref) (name : String) : Member → Action Ref
  | .native f => newNative name f
  | .code unit => newBytecodeMethod unit (some module)

/-- Makes the members of a module and binds each to a variable of its namespace. -/
def importMembers (module : Ref) : List (String × Member) → Action Unit
  | [] => return ()
  | (name, member) :: rest => do
    let method ← newMember module name member
    let var ← newVar (some method)
    Action.modifyHeap fun h => h.update module (Payload.addLocal name var)
    importMembers module rest

/-- The task's copy of a registered module. It is entered in the module table before its members
are made, so that they can refer to it. -/
def importModule (name : String) : Action Ref := do
  match (← get).modules.find? name with
  | some m => return m
  | none =>
    match (← get).registry.find? name with
    | none => Action.raise (.noModule name)
    | some spec =>
      let module ← new .module (.module ⟨name, {}⟩)
      modify fun vm => { vm with modules := vm.modules.insert name module }
      importMembers module spec.members.entries
      trace Channels.module "module" fun _ =>
        s!"imported {name} ({spec.members.size} members)"
      return module

/-- The value that a failure raises: a raised value itself, or an error object that describes the
failure. -/
def raisedValue (e : Error) : Action Ref :=
  match e with
  | .panic v => pure v
  | e => newError e.message none

end Vm
end ObjectMachine
