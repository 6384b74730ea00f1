import ObjectMachine.Config
import ObjectMachine.Failure
import ObjectMachine.Object

/-!
# ObjectMachine.Heap

The heap of one task.

Objects live in numbered cells. A freed cell is used again, lowest number first, and remembers how
often it was freed, so that a reference to an object that is gone is never taken for a reference to
the object that came after it.

* `Heap.place`, `Heap.alloc` — put a new object in a cell.
* `Heap.get` — the object of a reference; fatal for a reference that is stale or foreign.
* `Heap.contains` — whether a reference names an object that is still there.
* `Heap.update` — gives an object another payload.
* `Heap.addRoot`, `Heap.removeRoot` — the permanent roots.
* `Heap.stats` — the counters.
-/

namespace ObjectMachine

/-- A place for one object, and how often it was freed. -/
structure Cell where
  generation : UInt32 := 0
  obj : Option Obj := none
deriving Inhabited

structure Heap where
  id : Nat
  cells : Array Cell := #[]
  /-- The empty cells, in the order in which they are used again. -/
  free : List Nat := []
  roots : List Ref := []
  /-- Number of objects. -/
  live : Nat := 0
  /-- Allocations since the last collection. -/
  allocated : Nat := 0
  /-- Allocations at which a collection is due. -/
  threshold : Nat
  minThreshold : Nat
  growth : Float
  collections : Nat := 0
  freedLast : Nat := 0
  freedTotal : Nat := 0
  /-- How deep the display or the comparison that is going on has got. -/
  nesting : Nat := 0
  /-- What finalizer hooks have noted, newest first. -/
  notes : List String := []
deriving Inhabited

/-- The counters of a heap. -/
structure HeapStats where
  live : Nat
  collections : Nat
  freedLast : Nat
  freedTotal : Nat
  threshold : Nat
deriving DecidableEq, Repr

namespace Heap

/-- A heap without objects. -/
def empty (id : Nat) (config : Config) : Heap :=
  { id := id
    threshold := config.gcThreshold
    minThreshold := config.gcMinThreshold
    growth := config.gcGrowth }

/-- Puts an object in the next free cell, or in a new one. The number of a new cell is the number of
cells before it, which is meant to be less than 2 ^ 32. -/
def place (h : Heap) (o : Obj) : Ref × Heap :=
  match h.free with
  | c :: rest =>
    let generation := (h.cells[c]?.map Cell.generation).getD 0
    (⟨h.id, c, generation⟩,
      { h with
        cells := h.cells.modify c fun cell => { cell with obj := some o }
        free := rest
        live := h.live + 1
        allocated := h.allocated + 1 })
  | [] =>
    (⟨h.id, h.cells.size, 0⟩,
      { h with
        cells := h.cells.push { obj := some o }
        live := h.live + 1
        allocated := h.allocated + 1 })

/-- A reference of another heap must not be used in this one. -/
def checkOwn (h : Heap) (r : Ref) : Except Fatal Unit :=
  if r.heap = h.id then .ok () else .error (.foreign r h.id)

/-- A new object of a class of this heap. -/
def alloc (h : Heap) (cls : Ref) (p : Payload) : Except Fatal (Ref × Heap) :=
  match h.checkOwn cls with
  | .ok () => .ok (h.place ⟨cls, p⟩)
  | .error e => .error e

/-- The object in the cell that `r` names, if it is the one that `r` was made for. -/
def find? (h : Heap) (r : Ref) : Option Obj :=
  match h.cells[r.cell]? with
  | some cell => if cell.generation = r.generation then cell.obj else none
  | none => none

/-- Whether `r` names an object of this heap that is still there. -/
def contains (h : Heap) (r : Ref) : Bool :=
  r.heap == h.id && (h.find? r).isSome

/-- The object of a reference. -/
def get (h : Heap) (r : Ref) : Except Fatal Obj :=
  if r.heap = h.id then
    match h.find? r with
    | some o => .ok o
    | none => .error (.collected r)
  else .error (.foreign r h.id)

/-- The payload of a reference's object. -/
def payload (h : Heap) (r : Ref) : Except Fatal Payload :=
  match h.get r with
  | .ok o => .ok o.payload
  | .error e => .error e

/-- The class of a reference's object. -/
def classOf (h : Heap) (r : Ref) : Except Fatal Ref :=
  match h.get r with
  | .ok o => .ok o.cls
  | .error e => .error e

/-- Gives the object in a cell another payload. -/
def update (h : Heap) (r : Ref) (f : Payload → Payload) : Heap :=
  { h with
    cells := h.cells.modify r.cell fun cell =>
      { cell with obj := cell.obj.map fun o => { o with payload := f o.payload } } }

/-- Makes an object a permanent root. -/
def addRoot (h : Heap) (r : Ref) : Except Fatal Heap :=
  match h.checkOwn r with
  | .ok () => .ok { h with roots := r :: h.roots }
  | .error e => .error e

/-- Takes back one `addRoot`; nothing happens if there was none. -/
def removeRoot (h : Heap) (r : Ref) : Heap :=
  { h with roots := h.roots.erase r }

/-- Whether enough was allocated since the last collection for another one. -/
def shouldCollect (h : Heap) : Bool :=
  h.threshold ≤ h.allocated

def stats (h : Heap) : HeapStats :=
  ⟨h.live, h.collections, h.freedLast, h.freedTotal, h.threshold⟩

/-- The notes of finalizer hooks since the last call, oldest first. -/
def takeNotes (h : Heap) : List String × Heap :=
  (h.notes.reverse, { h with notes := [] })

end Heap
end ObjectMachine
