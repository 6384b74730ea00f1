/-!
# ObjectMachine.Ref

Names of heap objects and of tasks.

* `Ref` — a reference to an object: its heap, its cell, and how often the cell had been freed when
  the object was placed there. A reference that outlives its object is recognised by the last part.
* `TaskId` — a task of a task system.
-/

namespace ObjectMachine

/-- The numbers of heaps and cells have 32 bits in the system that is described and no bound here:
the two agree as long as a process makes fewer than 2 ^ 32 heaps, and each heap has fewer than
2 ^ 32 cells, which is more than memory has room for. -/
structure Ref where
  heap : Nat
  cell : Nat
  /-- How often the cell had been freed, modulo 2 ^ 32. -/
  generation : UInt32
deriving DecidableEq, Repr, Inhabited

/-- The form in which a reference appears in reports. -/
def Ref.text (r : Ref) : String :=
  s!"Ref(h{r.heap}#{r.cell}.{r.generation.toNat})"

/-- A task: the system it runs in, and its number there. The main task is number zero. -/
structure TaskId where
  system : Nat
  number : Nat
deriving DecidableEq, Repr, Inhabited

def TaskId.isMain (t : TaskId) : Bool :=
  t.number == 0

end ObjectMachine
