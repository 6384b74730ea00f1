import ObjectMachine.Vm.Make

/-!
# ObjectMachine.Vm.Copy

Copying values between tasks.

* `Heap.pack` — the tree of a value; refused for values that cannot be sent and for values nested
  deeper than `maxPackDepth`, which includes those that contain themselves.
* `Vm.unpack` — rebuilds a tree as objects of the task's heap.
-/

namespace ObjectMachine
namespace Heap

/-- Packs what a value contains. -/
abbrev Packer := Ref → Except Stop Packed

/-- A question to the heap within packing. -/
def asking {α : Type} : Except Fatal α → Except Stop α
  | .ok a => .ok a
  | .error e => .error (.fatal e)

def packItems (pack : Packer) : List Ref → Except Stop (List Packed)
  | [] => .ok []
  | r :: rest => do
    let p ← pack r
    let ps ← packItems pack rest
    return p :: ps

def packEntries (pack : Packer) : List (Ref × Ref) → Except Stop (List (Packed × Packed))
  | [] => .ok []
  | (k, v) :: rest => do
    let p ← pack k
    let q ← pack v
    let ps ← packEntries pack rest
    return (p, q) :: ps

def packOption (pack : Packer) : Option Ref → Except Stop (Option Packed)
  | none => .ok none
  | some r => do
    let p ← pack r
    return some p

/-- Packs the contents of captured variables. -/
def packBindings (h : Heap) (pack : Packer) :
    List (String × Ref) → Except Stop (List (String × Option Packed))
  | [] => .ok []
  | (name, var) :: rest => do
    let value ←
      match ← asking (h.payload var) with
      | .var v => pure v
      | p => throw (.fatal (.wrongKind var p.kind "a var"))
    let packed ← packOption pack value
    let others ← packBindings h pack rest
    return (name, packed) :: others

def unitOf (h : Heap) (code : Ref) : Except Stop CodeUnit := do
  match ← asking (h.payload code) with
  | .code c => return c.unit
  | p => throw (.fatal (.wrongKind code p.kind "code"))

def moduleNameOf (h : Heap) : Option Ref → Except Stop (Option String)
  | none => .ok none
  | some m => do
    match ← asking (h.payload m) with
    | .module m => return some m.name
    | p => throw (.fatal (.wrongKind m p.kind "a module"))

/-- The body of a method without references; captured variables in the order of their names. -/
def packBody (h : Heap) (pack : Packer) : Body → Except Stop PackedBody
  | .native f => .ok (.native f)
  | .bytecode code module => do
    let unit ← h.unitOf code
    let name ← h.moduleNameOf module
    return .bytecode unit name
  | .closure code module bindings => do
    let packed ← packBindings h pack bindings.entries
    let unit ← h.unitOf code
    let name ← h.moduleNameOf module
    return .closure unit name (NameMap.sortByName packed)

/-- Packs a value whose nesting goes less than `levels` levels down. -/
def packWithin (h : Heap) : Nat → Packer
  | 0, _ => .error (.raised (.pack .tooDeep))
  | levels + 1, r => do
    match ← asking (h.payload r) with
    | .nil => return .nil
    | .bool b => return .bool b
    | .int i => return .int i
    | .float x => return .float x
    | .str b => return .str b
    | .array items =>
      let ps ← packItems (packWithin h levels) items.toList
      return .array ps
    | .hash t =>
      let ps ← packEntries (packWithin h levels) t.entries.toList
      return .hash ps
    | .error e =>
      let cause ← packOption (packWithin h levels) e.cause
      return .error e.message cause e.backtrace
    | .method m =>
      let receiver ← packOption (packWithin h levels) m.receiver
      let body ← packBody h (packWithin h levels) m.body
      return .method m.name body receiver
    | .task t => return .task t.task
    | _ =>
      let c ← asking (h.className r)
      throw (.raised (.pack (.unsendable c)))

/-- The tree of a value. -/
def pack (h : Heap) (r : Ref) : Except Stop Packed :=
  h.packWithin (maxPackDepth + 1) r

end Heap

namespace Vm

/-- The tree of a value of the task. -/
def pack (r : Ref) : Action Packed := fun vm =>
  match vm.heap.pack r with
  | .ok p => .ok p vm
  | .error e => .error e vm

/-- Imports the module of a method that arrives. -/
def importOption : Option String → Action (Option Ref)
  | none => return none
  | some name => do
    let m ← importModule name
    return some m

mutual

/-- Rebuilds a value. -/
def unpack : Packed → Action Ref
  | .nil => nil
  | .bool b => bool b
  | .int i => newInt i
  | .float x => newFloat x
  | .str b => newBytes b
  | .array items => do
    let rs ← unpackItems items
    newArray rs
  | .hash entries => do
    let h ← newHash
    unpackEntries h entries
    return h
  | .error message cause trace => do
    let cause ← unpackOption cause
    allocError message cause trace
  | .method name body receiver => do
    let receiver ← unpackOption receiver
    let body ← unpackBody body
    newMethod name body receiver
  | .task t => newTask t

/-- Rebuilds what a method runs; its module is imported before its unit is loaded. -/
def unpackBody : PackedBody → Action Body
  | .native f => return .native f
  | .bytecode unit module => do
    let module ← importOption module
    let code ← loadCode unit
    return .bytecode code module
  | .closure unit module bindings => do
    let module ← importOption module
    let code ← loadCode unit
    let vars ← unpackBindings bindings {}
    return .closure code module vars

def unpackItems : List Packed → Action (List Ref)
  | [] => return []
  | p :: rest => do
    let r ← unpack p
    let rs ← unpackItems rest
    return r :: rs

/-- Puts the entries in a hash in order; of equal keys the last value stays. -/
def unpackEntries (hash : Ref) : List (Packed × Packed) → Action Unit
  | [] => return ()
  | (k, v) :: rest => do
    let key ← unpack k
    let value ← unpack v
    hashSet hash key value
    unpackEntries hash rest

def unpackOption : Option Packed → Action (Option Ref)
  | none => return none
  | some p => do
    let r ← unpack p
    return some r

/-- Makes a variable for each captured name. -/
def unpackBindings : List (String × Option Packed) → NameMap Ref → Action (NameMap Ref)
  | [], vars => return vars
  | (name, value) :: rest, vars => do
    let value ← unpackOption value
    let var ← newVar value
    unpackBindings rest (vars.insert name var)

end

end Vm
end ObjectMachine
