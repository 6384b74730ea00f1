import ObjectMachine.Heap.Chain
import ObjectMachine.Heap.Marks

/-!
# ObjectMachine.Heap.Collect

Mark-and-sweep collection.

Marking starts at the roots and follows, from each object, the reference to its class and what the
tracing functions of its class chain report. Sweeping runs the finalizers of all unmarked objects
while they are still in place, then frees their cells.

* `Heap.marks` — the cells reachable from given roots.
* `Heap.sweep` — frees the cells that are not marked.
* `Heap.collect` — both; answers how many objects were freed.
-/

namespace ObjectMachine
namespace Heap

/-- The tracing functions of a class chain, most derived class first. -/
def markFnsFrom (h : Heap) : Nat → Ref → Except Fatal (List MarkFn)
  | 0, _ => .ok []
  | fuel + 1, r =>
    match h.cls r with
    | .error e => .error e
    | .ok c =>
      match c.super with
      | none => .ok c.slots.mark.toList
      | some s =>
        match markFnsFrom h fuel s with
        | .ok fs => .ok (c.slots.mark.toList ++ fs)
        | .error e => .error e

/-- Where an object leads: its class, and what its tracing functions report, root class first. -/
def edges (h : Heap) (o : Obj) : Except Fatal (List Ref) :=
  match h.markFnsFrom (h.cells.size + 1) o.cls with
  | .ok fs => .ok (o.cls :: fs.reverse.flatMap fun f => f.targets o.payload)
  | .error e => .error e

/-- The first reference of a worklist whose cell is not marked yet, and the rest of the list.
Every reference that is passed over is checked. -/
def nextUnmarked (h : Heap) (marks : Marks) : List Ref → Except Fatal (Option (Ref × Obj × List Ref))
  | [] => .ok none
  | r :: rest =>
    match h.get r with
    | .error e => .error e
    | .ok o => if marks.has r.cell then nextUnmarked h marks rest else .ok (some (r, o, rest))

/-- Marks everything reachable from a worklist. Each round marks one more cell, so as many rounds
as there are cells suffice. -/
def markFrom (h : Heap) : Nat → Marks → List Ref → Except Fatal Marks
  | rounds, marks, gray =>
    match h.nextUnmarked marks gray with
    | .error e => .error e
    | .ok none => .ok marks
    | .ok (some (r, o, rest)) =>
      match rounds with
      | 0 => .ok marks
      | rounds + 1 =>
        match h.edges o with
        | .error e => .error e
        | .ok targets =>
          markFrom h rounds (marks.add r.cell) (targets.reverse ++ rest)

/-- The cells reachable from the roots of the heap and the given ones. -/
def marks (h : Heap) (extra : List Ref) : Except Fatal Marks :=
  h.markFrom h.cells.size {} (extra.reverse ++ h.roots)

/-- The finalizers of a class chain, most derived class first. A class that is gone ends the
chain. -/
def dtorsFrom (h : Heap) : Nat → Ref → List DtorFn
  | 0, _ => []
  | fuel + 1, r =>
    match h.cls? r with
    | none => []
    | some c =>
      c.slots.dtor.toList ++
        match c.super with
        | some s => dtorsFrom h fuel s
        | none => []

end Heap

/-- What a finalizer leaves of a payload, and what it notes. -/
def DtorFn.run : DtorFn → Payload → Payload × List String
  | .task, .task _ => (.nil, [])
  | .task, p => (p, [])
  | .note tag, p => (p, [tag ++ ":" ++ p.describe])

/-- Runs finalizers in order on a payload; the notes, oldest first. -/
def DtorFn.runAll : List DtorFn → Payload → Payload × List String
  | [], p => (p, [])
  | f :: fs, p =>
    let (p, first) := f.run p
    let (p, rest) := runAll fs p
    (p, first ++ rest)

namespace Heap

/-- The occupied cells without a mark, lowest first. -/
def garbage (h : Heap) (marks : Marks) : List Nat :=
  (List.range h.cells.size).filter fun i =>
    (h.cells[i]?.any fun cell => cell.obj.isSome) && !marks.has i

/-- Runs the finalizers of one object. -/
def finalize (h : Heap) (i : Nat) : Heap :=
  match h.cells[i]? with
  | some { obj := some o, .. } =>
    match h.dtorsFrom (h.cells.size + 1) o.cls with
    | [] => h
    | dtors =>
      let (p, notes) := DtorFn.runAll dtors o.payload
      { h with
        cells := h.cells.modify i fun cell => { cell with obj := some { o with payload := p } }
        notes := notes.reverse ++ h.notes }
  | _ => h

/-- Empties a cell. -/
def release (h : Heap) (i : Nat) : Heap :=
  { h with
    cells := h.cells.modify i fun cell => { generation := cell.generation + 1, obj := none } }

/-- The empty cells, lowest first. -/
def emptyCells (h : Heap) : List Nat :=
  (List.range h.cells.size).filter fun i => h.cells[i]?.any fun cell => cell.obj.isNone

/-- The growth factor for a heap with `live` objects: at most one and a half once it is large. -/
def growthFor (growth : Float) (live : Nat) : Float :=
  if live > 1000000 then (if growth < 1.5 then growth else 1.5) else growth

/-- The threshold for a heap with `live` objects: a multiple of them, rounded down and kept in the
range of sizes, but at least the minimum. -/
def nextThreshold (growth : Float) (least live : Nat) : Nat :=
  max (Float.ofNat live * growthFor growth live).toUInt64.toNat least

/-- Finalizes and frees every object without a mark; answers how many there were. -/
def sweep (h : Heap) (marks : Marks) : Nat × Heap :=
  let dead := h.garbage marks
  let h := dead.foldl finalize h
  let h := dead.foldl release h
  let freed := dead.length
  let live := h.live - freed
  (freed,
    { h with
      free := h.emptyCells
      live := live
      allocated := 0
      collections := h.collections + 1
      freedLast := freed
      freedTotal := h.freedTotal + freed
      threshold := nextThreshold h.growth h.minThreshold live })

/-- A full collection that keeps what is reachable from the roots and from `extra`. -/
def collect (h : Heap) (extra : List Ref) : Except Fatal (Nat × Heap) :=
  match h.marks extra with
  | .ok marks => .ok (h.sweep marks)
  | .error e => .error e

end Heap
end ObjectMachine
