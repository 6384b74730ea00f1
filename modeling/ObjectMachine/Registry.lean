import ObjectMachine.CodeUnit
import ObjectMachine.Dispatch
import ObjectMachine.NameMap

/-!
# ObjectMachine.Registry

The modules that the tasks of a system can import, described without reference to any heap.

* `ModuleSpec` — a module's members in the order of their definition.
* `Registry` — modules by name; a later module replaces an earlier one of the same name.
-/

namespace ObjectMachine

/-- A member of a module: a native function, or a unit whose globals are looked up in the module
first. -/
inductive Member where
  | native (f : Native)
  | code (unit : CodeUnit)

structure ModuleSpec where
  name : String
  members : NameMap Member := {}

namespace ModuleSpec

/-- Defines a member; one defined before keeps its place. -/
def define (m : ModuleSpec) (name : String) (member : Member) : ModuleSpec :=
  { m with members := m.members.insert name member }

end ModuleSpec

structure Registry where
  modules : NameMap ModuleSpec := {}
deriving Inhabited

namespace Registry

def add (r : Registry) (m : ModuleSpec) : Registry :=
  ⟨r.modules.insert m.name m⟩

def ofList (ms : List ModuleSpec) : Registry :=
  ms.foldl add {}

def find? (r : Registry) (name : String) : Option ModuleSpec :=
  r.modules.find? name

def size (r : Registry) : Nat :=
  r.modules.size

end Registry
end ObjectMachine
