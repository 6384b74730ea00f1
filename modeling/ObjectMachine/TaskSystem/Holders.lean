import ObjectMachine.TaskSystem

/-!
# ObjectMachine.TaskSystem.Holders

Who holds a task: the number of places from which it can still be reached.

A task holds itself while it runs. The system holds those that were not joined. Every task object
of a heap holds the task it names, and so does every copy of one on its way: in a mailbox, in an
ending, in a function that a task has still to begin with, or in a request. What belongs to a task
that nobody holds is gone with it.

* `TaskSystem.holders` — how often each task is held.
* `TaskSystem.refCount` — how often a given task is held.
-/

namespace ObjectMachine

/-- The tasks that the objects of a heap name. -/
def Heap.taskRefs (h : Heap) : List TaskId :=
  h.cells.toList.filterMap fun cell =>
    match cell.obj with
    | some { payload := .task t, .. } => some t.task
    | _ => none

/-- The tasks that a request names. -/
def Request.tasks : Request → List TaskId
  | .spawn body => body.tasks
  | .send target message => target :: message.tasks
  | .receive => []
  | .join target => [target]

namespace TaskSystem

/-- The tasks held by what a task is doing. A running task is held by its state and by the one who
started it. -/
def heldByActivity (self : TaskId) : Activity → List TaskId
  | .driven | .over | .dead => []
  | .ready body => self :: body.tasks
  | .paused m =>
    self :: self :: (m.vm.heap.taskRefs ++
      match m.mode with
      | .waiting r => r.tasks
      | _ => [])

/-- The tasks held by what belongs to a task: its activity, its messages and its ending. -/
def heldByTask (self : TaskId) (t : Task) : List TaskId :=
  heldByActivity self t.activity ++ t.mailbox.queue.flatMap Packed.tasks
    ++ (t.ending.map fun e => e.packed.tasks).getD []

/-- The tasks held from outside of any task: by the main task, by its heap, and by the list of
tasks that were not joined. -/
def heldOutside (s : TaskSystem) : List TaskId :=
  s.main.task :: (s.main.heap.taskRefs ++ s.unjoined.map (⟨s.number, ·⟩))

/-- Every hold, if only the tasks of the list `alive` are there. -/
def holds (s : TaskSystem) (alive : List Nat) : List TaskId :=
  s.heldOutside ++ alive.flatMap fun t =>
    match s.tasks[t]? with
    | some task => heldByTask ⟨s.number, t⟩ task
    | none => []

/-- Leaves out the tasks that nobody holds, and then those that only they held. -/
def settleAlive (s : TaskSystem) : Nat → List Nat → List Nat
  | 0, alive => alive
  | rounds + 1, alive =>
    let held := s.holds alive
    let kept := alive.filter fun t => held.contains ⟨s.number, t⟩
    if kept.length = alive.length then alive else s.settleAlive rounds kept

/-- Every hold of the tasks that are still there. -/
def holders (s : TaskSystem) : List TaskId :=
  s.holds (s.settleAlive s.tasks.size (List.range s.tasks.size))

/-- How often a task is held. -/
def refCount (s : TaskSystem) (t : TaskId) : Nat :=
  s.holders.count t

end TaskSystem
end ObjectMachine
