import ObjectMachine.Heap

/-!
# ObjectMachine.Heap.Chain

Look-up along the chain of super classes.

A super class is always older than its class, so a chain has at most as many members as the heap
has cells; the walks below are bounded by that number.

* `Heap.cls` — the class payload of a class object; fatal for anything else.
* `Heap.findInChain` — the first class of a chain that has something.
* `Heap.requireSlot` — a dispatch slot that must be there.
* `Heap.lookupMethod`, `Heap.isSubclass` — methods and ancestry.
-/

namespace ObjectMachine
namespace Heap

/-- The class that a class object holds. -/
def cls (h : Heap) (r : Ref) : Except Fatal Class :=
  match h.payload r with
  | .ok (.cls c) => .ok c
  | .ok p => .error (.wrongKind r p.kind "a class")
  | .error e => .error e

/-- The class that a class object holds, if it is one. -/
def cls? (h : Heap) (r : Ref) : Option Class :=
  match h.cls r with
  | .ok c => some c
  | .error _ => none

/-- The name of an object's class. -/
def className (h : Heap) (r : Ref) : Except Fatal String := do
  let k ← h.classOf r
  let c ← h.cls k
  return c.name

/-- Walks at most `fuel` classes from `c` upwards to the first that `pick` accepts. -/
def findFrom {α : Type} (h : Heap) (pick : Class → Option α) : Nat → Ref → Except Fatal (Option α)
  | 0, _ => .ok none
  | fuel + 1, r =>
    match h.cls r with
    | .error e => .error e
    | .ok c =>
      match pick c with
      | some a => .ok (some a)
      | none =>
        match c.super with
        | some s => findFrom h pick fuel s
        | none => .ok none

/-- What `pick` finds first on the way from a class to its root class. -/
def findInChain {α : Type} (h : Heap) (pick : Class → Option α) (r : Ref) :
    Except Fatal (Option α) :=
  findFrom h pick (h.cells.size + 1) r

/-- The first filled slot of a chain. -/
def findSlot {α : Type} (h : Heap) (pick : Slots → Option α) (r : Ref) :
    Except Fatal (Option α) :=
  h.findInChain (fun c => pick c.slots) r

/-- The first filled slot of a chain; a chain without it is fatal. -/
def requireSlot {α : Type} (h : Heap) (slot : Slot) (pick : Slots → Option α) (r : Ref) :
    Except Fatal α := do
  match ← h.findSlot pick r with
  | some f => return f
  | none =>
    let c ← h.cls r
    throw (.missingSlot c.name slot)

/-- The method of a name, of the class itself or else of an ancestor. -/
def lookupMethod (h : Heap) (r : Ref) (name : String) : Except Fatal (Option Ref) :=
  h.findInChain (fun c => c.methods.find? name) r

/-- Whether `ancestor` is met within `fuel` classes from `r` upwards. -/
def reaches (h : Heap) (ancestor : Ref) : Nat → Ref → Except Fatal Bool
  | 0, _ => .ok false
  | fuel + 1, r =>
    if r = ancestor then .ok true
    else
      match h.cls r with
      | .error e => .error e
      | .ok c =>
        match c.super with
        | some s => reaches h ancestor fuel s
        | none => .ok false

/-- Whether `ancestor` is the class `r` or one of its ancestors. -/
def isSubclass (h : Heap) (r ancestor : Ref) : Except Fatal Bool :=
  h.reaches ancestor (h.cells.size + 1) r

end Heap
end ObjectMachine
