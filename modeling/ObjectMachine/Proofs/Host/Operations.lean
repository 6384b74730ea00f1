import ObjectMachine.Proofs.Renaming.Machines

/-!
# ObjectMachine.Proofs.Host.Operations

What an embedding program can do with a task between calls.

* `Operation` — an operation, without the references it is given.
* `Operation.run` — the operation on references. It answers the references that the program gets to
  see.
* `Operation.respects` — every operation does the same in related states.
-/

namespace ObjectMachine

/-! ## Operands -/

namespace Operands

/-- An operation without operands. Given any, it does nothing, as do the others if the number of
operands is wrong. -/
def zero (a : Action (List Ref)) : List Ref → Action (List Ref)
  | [] => a
  | _ => return []

def one (f : Ref → Action (List Ref)) : List Ref → Action (List Ref)
  | [x] => f x
  | _ => return []

/-- An operation on one operand, or on none. -/
def option (f : Option Ref → Action (List Ref)) : List Ref → Action (List Ref)
  | [] => f none
  | [x] => f (some x)
  | _ => return []

def two (f : Ref → Ref → Action (List Ref)) : List Ref → Action (List Ref)
  | [x, y] => f x y
  | _ => return []

def three (f : Ref → Ref → Ref → Action (List Ref)) : List Ref → Action (List Ref)
  | [x, y, z] => f x y z
  | _ => return []

/-- An operation on an object and any number of other operands. -/
def first (f : Ref → List Ref → Action (List Ref)) : List Ref → Action (List Ref)
  | x :: xs => f x xs
  | [] => return []

def single (a : Action Ref) : Action (List Ref) := do
  return [← a]

def silent {α : Type} (a : Action α) : Action (List Ref) := do
  let _ ← a
  return []

section Related

variable {ρ : Renaming} {xs ys : List Ref}

abbrev Answers (σ : Renaming) : List Ref → List Ref → Prop :=
  List.Forall₂ σ

theorem zero_respects {a b : Action (List Ref)} (h : List.Forall₂ ρ xs ys)
    (hab : Respects ρ a b Answers) : Respects ρ (zero a xs) (zero b ys) Answers := by
  cases h with
  | nil => exact hab
  | cons _ _ => exact Respects.return_ .nil

theorem one_respects {f g : Ref → Action (List Ref)} (h : List.Forall₂ ρ xs ys)
    (hfg : ∀ x y, ρ x y → Respects ρ (f x) (g y) Answers) :
    Respects ρ (one f xs) (one g ys) Answers := by
  rcases h with _ | ⟨hx, _ | ⟨_, _⟩⟩
  · exact Respects.return_ .nil
  · exact hfg _ _ hx
  · exact Respects.return_ .nil

theorem option_respects {f g : Option Ref → Action (List Ref)} (h : List.Forall₂ ρ xs ys)
    (hfg : ∀ x y, Option.Rel ρ x y → Respects ρ (f x) (g y) Answers) :
    Respects ρ (option f xs) (option g ys) Answers := by
  rcases h with _ | ⟨hx, _ | ⟨_, _⟩⟩
  · exact hfg _ _ .none
  · exact hfg _ _ (.some hx)
  · exact Respects.return_ .nil

theorem two_respects {f g : Ref → Ref → Action (List Ref)} (h : List.Forall₂ ρ xs ys)
    (hfg : ∀ x y x' y', ρ x y → ρ x' y' → Respects ρ (f x x') (g y y') Answers) :
    Respects ρ (two f xs) (two g ys) Answers := by
  rcases h with _ | ⟨hx, _ | ⟨hx', _ | ⟨_, _⟩⟩⟩
  · exact Respects.return_ .nil
  · exact Respects.return_ .nil
  · exact hfg _ _ _ _ hx hx'
  · exact Respects.return_ .nil

theorem three_respects {f g : Ref → Ref → Ref → Action (List Ref)} (h : List.Forall₂ ρ xs ys)
    (hfg : ∀ x y x' y' x'' y'', ρ x y → ρ x' y' → ρ x'' y'' →
      Respects ρ (f x x' x'') (g y y' y'') Answers) :
    Respects ρ (three f xs) (three g ys) Answers := by
  rcases h with _ | ⟨hx, _ | ⟨hx', _ | ⟨hx'', _ | ⟨_, _⟩⟩⟩⟩
  · exact Respects.return_ .nil
  · exact Respects.return_ .nil
  · exact Respects.return_ .nil
  · exact hfg _ _ _ _ _ _ hx hx' hx''
  · exact Respects.return_ .nil

theorem first_respects {f g : Ref → List Ref → Action (List Ref)} (h : List.Forall₂ ρ xs ys)
    (hfg : ∀ x y xs ys, ρ x y → List.Forall₂ ρ xs ys → Respects ρ (f x xs) (g y ys) Answers) :
    Respects ρ (first f xs) (first g ys) Answers := by
  cases h with
  | nil => exact Respects.return_ .nil
  | cons hx h => exact hfg _ _ _ _ hx h

theorem single_respects {a b : Action Ref} (hab : Respects ρ a b Renamed) :
    Respects ρ (single a) (single b) Answers :=
  hab.bind fun _ _ _ _ hxy => Respects.return_ (.cons hxy .nil)

theorem silent_respects {α β : Type} {a : Action α} {b : Action β}
    {R : Renaming → α → β → Prop} (hab : Respects ρ a b R) :
    Respects ρ (silent a) (silent b) Answers :=
  hab.bind fun _ _ _ _ _ => Respects.return_ .nil

end Related

end Operands

inductive Operation where
  -- values
  | nil
  | bool (b : Bool)
  | int (i : Int64)
  | float (x : Float)
  | bytes (b : ByteArray)
  | array
  | hash
  | var
  | error (message : String)
  | native (name : String) (f : Native)
  | code (unit : CodeUnit)
  | method (unit : CodeUnit)
  | bind
  | frame
  | currentTask
  | task (t : TaskId)
  | unpack (p : Packed)
  -- classes and names
  | classNew (name : String) (size : Nat)
  | define (name : String)
  | defineNative (name : String) (f : Native)
  | classNamed (name : String)
  | global (name : String)
  | setGlobal (name : String)
  | importModule (name : String)
  -- operators
  | arith (op : Arith)
  | compare
  | equals
  | truthy
  | getAttr (name : String)
  | getItem
  | text
  | lookup (name : String)
  -- other tasks
  | pack
  | spawn
  | send
  | join
  -- contents
  | classOf
  | contents
  | readVar
  | writeVar
  | setItems
  | setSlots
  | setEntry
  | addLocal (name : String)
  | takeOutput

namespace Operation

open Operands

def contentsOf (r : Ref) : Action (List Ref) := do
  return (← Vm.payload r).refs

def methodNamed (cls : Ref) (name : String) : Action (List Ref) := do
  return (← Action.ofHeap fun h => h.lookupMethod cls name).toList

/-- The references of a name in one of the name tables. -/
def named (table : Vm → NameMap Ref) (name : String) : Action (List Ref) := do
  return ((table (← get)).find? name).toList

/-- An operation on references. -/
def run : Operation → List Ref → Action (List Ref)
  | .nil => zero (single Vm.nil)
  | .bool b => zero (single (Vm.bool b))
  | .int i => zero (single (Vm.newInt i))
  | .float x => zero (single (Vm.newFloat x))
  | .bytes b => zero (single (Vm.newBytes b))
  | .array => fun items => single (Vm.newArray items)
  | .hash => zero (single Vm.newHash)
  | .var => option fun value => single (Vm.newVar value)
  | .error message => option fun cause => single (Vm.newError message cause)
  | .native name f => zero (single (Vm.newNative name f))
  | .code unit => zero (single (Vm.loadCode unit))
  | .method unit => option fun module => single (Vm.newBytecodeMethod unit module)
  | .bind => two fun method receiver => single (Vm.bind method receiver)
  | .frame => one fun method => single (Vm.buildFrame method)
  | .currentTask => zero (single Vm.currentTask)
  | .task t => zero (single (Vm.newTask t))
  | .unpack p => zero (single (Vm.unpack p))
  | .classNew name size => option fun super => single (Vm.classNew name super size)
  | .define name => two fun cls method => silent (Vm.defineMethod cls name method)
  | .defineNative name f => one fun cls => silent (Vm.defineNative cls name f)
  | .classNamed name => zero (named Vm.classes name)
  | .global name => zero (named Vm.globals name)
  | .setGlobal name => one fun value => silent (Vm.setGlobal name value)
  | .importModule name => zero (single (Vm.importModule name))
  | .arith op => two fun a b => single (Vm.binary op a b)
  | .compare => two fun a b => silent (Vm.compare a b)
  | .equals => two fun a b => single (Vm.equals a b >>= Vm.bool)
  | .truthy => one fun a => single (Vm.truthy a >>= Vm.bool)
  | .getAttr name => one fun obj => single (Vm.getAttr obj name)
  | .getItem => two fun obj key => single (Vm.getItem obj key)
  | .text => one fun a => single (Vm.strOf a)
  | .lookup name => one fun cls => methodNamed cls name
  | .pack => one fun a => silent (Vm.pack a)
  | .spawn => one fun callable => silent (Vm.requestSpawn callable)
  | .send => two fun target value => silent (Vm.requestSend target value)
  | .join => one fun target => silent (Vm.requestJoin target)
  | .classOf => one fun a => single (Action.ofHeap fun h => h.classOf a)
  | .contents => one contentsOf
  | .readVar => one fun var => do return (← Vm.readVar var).toList
  | .writeVar => two fun var value => silent (Vm.writeVar var value)
  | .setItems => first fun array items =>
    silent (Action.modifyHeap fun h => h.update array (Payload.setItems items.toArray))
  | .setSlots => first fun obj slots =>
    silent (Action.modifyHeap fun h => h.update obj (Payload.setSlots slots.toArray))
  | .setEntry => three fun hash key value => silent (Vm.hashSet hash key value)
  | .addLocal name => two fun module var =>
    silent (Action.modifyHeap fun h => h.update module (Payload.addLocal name var))
  | .takeOutput => zero (silent Vm.takeOutput)

/-! ## Related states -/

section Related

variable {ρ : Renaming} {xs ys : List Ref}

theorem contentsOf_respects {r s : Ref} (hrs : ρ r s) :
    Respects ρ (contentsOf r) (contentsOf s) Answers :=
  (Observes.payload hrs).andThen fun _ _ hpq => Respects.return_ hpq.refs

theorem methodNamed_respects {r s : Ref} (hrs : ρ r s) (name : String) :
    Respects ρ (methodNamed r name) (methodNamed s name) Answers :=
  (Observes.lookupMethod hrs name).andThen fun _ _ hm => Respects.return_ (optionRel_toList hm)

theorem named_respects {table : Vm → NameMap Ref}
    (h : ∀ v w : Vm, v.Related ρ w → (table v).Related ρ (table w)) (name : String) :
    Respects ρ (named table name) (named table name) Answers :=
  Leads.get_bind fun v w hvw =>
    Respects.return_ (optionRel_toList ((h v w hvw).find? name))

theorem takeOutput_respects : Respects ρ Vm.takeOutput Vm.takeOutput Equal := by
  unfold Vm.takeOutput
  refine Leads.get_bind fun v w hvw => ?_
  rw [hvw.output]
  refine Respects.bind (R := Anything) ?_ fun _ _ _ _ _ => Respects.return_ rfl
  exact Respects.changing (fun _ _ h => { h with output := rfl }) fun _ => .of_eq rfl rfl

theorem defineNative_respects {r s : Ref} (hrs : ρ r s) (name : String) (f : Native) :
    Respects ρ (Vm.defineNative r name f) (Vm.defineNative s name f) Anything :=
  (Respects.newNative name f).bind fun _ hσ _ _ hmn => Respects.defineMethod (hσ _ _ hrs) name hmn

theorem respects (c : Operation) (h : List.Forall₂ ρ xs ys) :
    Respects ρ (c.run xs) (c.run ys) Answers := by
  cases c with
  | nil => exact zero_respects h (single_respects Observes.nil.respects)
  | bool b => exact zero_respects h (single_respects (Observes.bool b).respects)
  | int i => exact zero_respects h (single_respects (Respects.newInt i))
  | float x => exact zero_respects h (single_respects (Respects.newFloat x))
  | bytes b => exact zero_respects h (single_respects (Respects.newBytes b))
  | array => exact single_respects (Respects.newArray h)
  | hash => exact zero_respects h (single_respects Respects.newHash)
  | var => exact option_respects h fun _ _ hx => single_respects (Respects.newVar hx)
  | error message =>
    exact option_respects h fun _ _ hx => single_respects (Respects.newError message hx)
  | native name f => exact zero_respects h (single_respects (Respects.newNative name f))
  | code unit => exact zero_respects h (single_respects (Respects.loadCode unit))
  | method unit =>
    exact option_respects h fun _ _ hx => single_respects (Respects.newBytecodeMethod unit hx)
  | bind => exact two_respects h fun _ _ _ _ hx hx' => single_respects (Respects.bindMethod hx hx')
  | frame => exact one_respects h fun _ _ hx => single_respects (Respects.buildFrame hx)
  | currentTask => exact zero_respects h (single_respects Respects.currentTask)
  | task t => exact zero_respects h (single_respects (Respects.newTask t))
  | unpack p => exact zero_respects h (single_respects (Respects.unpack p))
  | classNew name size =>
    exact option_respects h fun _ _ hx => single_respects (Respects.classNew name hx size)
  | define name =>
    exact two_respects h fun _ _ _ _ hx hx' => silent_respects (Respects.defineMethod hx name hx')
  | defineNative name f =>
    exact one_respects h fun _ _ hx => silent_respects (defineNative_respects hx name f)
  | classNamed name => exact zero_respects h (named_respects (fun _ _ hvw => hvw.classes) name)
  | global name => exact zero_respects h (named_respects (fun _ _ hvw => hvw.globals) name)
  | setGlobal name => exact one_respects h fun _ _ hx => silent_respects (Respects.setGlobal name hx)
  | importModule name => exact zero_respects h (single_respects (Respects.importModule name))
  | arith op =>
    exact two_respects h fun _ _ _ _ hx hx' => single_respects (Respects.binary op hx hx')
  | compare =>
    exact two_respects h fun _ _ _ _ hx hx' =>
      silent_respects (R := Equal) (Observes.compare hx hx').respects
  | equals =>
    exact two_respects h fun _ _ _ _ hx hx' =>
      single_respects ((Observes.equals hx hx').andEq fun b => (Observes.bool b).respects)
  | truthy =>
    exact one_respects h fun _ _ hx =>
      single_respects ((Observes.truthy hx).andEq fun b => (Observes.bool b).respects)
  | getAttr name => exact one_respects h fun _ _ hx => single_respects (Respects.getAttr hx name)
  | getItem => exact two_respects h fun _ _ _ _ hx hx' => single_respects (Respects.getItem hx hx')
  | text => exact one_respects h fun _ _ hx => single_respects (Respects.strOf hx)
  | lookup name => exact one_respects h fun _ _ hx => methodNamed_respects hx name
  | pack =>
    exact one_respects h fun _ _ hx => silent_respects (R := Equal) (Observes.pack hx).respects
  | spawn =>
    exact one_respects h fun _ _ hx =>
      silent_respects (R := Equal) (Observes.requestSpawn hx).respects
  | send =>
    exact two_respects h fun _ _ _ _ hx hx' => silent_respects (Respects.requestSend hx hx')
  | join =>
    exact one_respects h fun _ _ hx => silent_respects (R := Equal) (Observes.requestJoin hx).respects
  | classOf => exact one_respects h fun _ _ hx => single_respects (Observes.classOf hx).respects
  | contents => exact one_respects h fun _ _ hx => contentsOf_respects hx
  | readVar =>
    exact one_respects h fun _ _ hx => (Observes.readVar hx).andThen fun _ _ hv =>
      Respects.return_ (optionRel_toList hv)
  | writeVar =>
    exact two_respects h fun _ _ _ _ hx hx' => silent_respects (Respects.writeVar hx hx')
  | setItems =>
    exact first_respects h fun _ _ _ _ hx hxs => silent_respects (Respects.setItems hx hxs)
  | setSlots =>
    exact first_respects h fun _ _ _ _ hx hxs => silent_respects (Respects.setSlots hx hxs)
  | setEntry =>
    exact three_respects h fun _ _ _ _ _ _ hx hk hv => silent_respects (Respects.hashSet hx hk hv)
  | addLocal name =>
    exact two_respects h fun _ _ _ _ hx hx' => silent_respects (Respects.addLocal hx name hx')
  | takeOutput => exact zero_respects h (silent_respects takeOutput_respects)

end Related
end Operation
end ObjectMachine
