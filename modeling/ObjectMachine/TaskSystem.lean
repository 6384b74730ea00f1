import ObjectMachine.Machine
import ObjectMachine.Mailbox

/-!
# ObjectMachine.TaskSystem

Tasks that share a registry and a configuration and exchange copies of values.

The main task is driven by the embedding program; the others run when a task has to wait. A task
runs until it has to wait itself or is over, so the order in which tasks run is fixed, and what a
task can see of the others, messages and endings, does not depend on it.

* `Task`, `TaskSystem` — the state.
* `TaskSystem.boot` — a system with its main task.
* `TaskSystem.serve` — answers a request, or tells that it has to wait.
* `TaskSystem.advance` — lets one task run.
* `TaskSystem.act`, `TaskSystem.perform` — what the embedding program does with the main task.
* `TaskSystem.shutdown` — waits for every task that was not joined.
-/

namespace ObjectMachine

inductive TaskState where
  | created
  | running
  | finished
  | joined
deriving DecidableEq, Repr

def TaskState.text : TaskState → String
  | .created => "Created"
  | .running => "Running"
  | .finished => "Finished"
  | .joined => "Joined"

/-- How a task ended: with the value of its function, or with a raised value. -/
inductive Ending where
  | returned (p : Packed)
  | panicked (p : Packed)

def Ending.packed : Ending → Packed
  | .returned p => p
  | .panicked p => p

def Ending.isPanic : Ending → Bool
  | .returned _ => false
  | .panicked _ => true

def Ending.verb : Ending → String
  | .returned _ => "returned"
  | .panicked _ => "panicked"

/-- What a task is doing. -/
inductive Activity where
  /-- The embedding program drives it. -/
  | driven
  /-- It was spawned and has not begun. -/
  | ready (body : Packed)
  /-- It has begun and stands still until it runs again. -/
  | paused (m : Machine)
  /-- It is over. -/
  | over
  /-- Its host crashed. -/
  | dead

structure Task where
  state : TaskState
  activity : Activity
  mailbox : Mailbox Packed := {}
  ending : Option Ending := none

instance : Inhabited Task := ⟨{ state := .created, activity := .over }⟩

structure TaskSystem where
  /-- Tells systems apart. -/
  number : Nat
  registry : Registry
  config : Config
  main : Vm
  /-- The tasks by number, the main task first. -/
  tasks : Array Task
  /-- The tasks that nobody has joined, oldest first. -/
  unjoined : List Nat := []
  /-- The number of the next heap. -/
  nextHeap : Nat
  /-- The trace lines, newest first. -/
  log : List String := []

namespace TaskSystem

/-- A line on the task channel. -/
def note (s : TaskSystem) (text : String) : TaskSystem :=
  if s.config.trace.task then { s with log := ("[sable:task] " ++ text) :: s.log } else s

/-- Takes over the trace lines of a task. -/
def absorb (s : TaskSystem) (vm : Vm) : Vm × TaskSystem :=
  match vm.log with
  | [] => (vm, s)
  | log => ({ vm with log := [] }, { s with log := log ++ s.log })

/-- A system with its main task. Heaps are numbered from `base`, which also tells the system from
others. -/
def boot (registry : Registry) (config : Config) (base : Nat) : TaskSystem :=
  let vm := Vm.boot registry config base ⟨base, 0⟩
  let s : TaskSystem :=
    { number := base
      registry := registry
      config := config
      main := { vm with log := [] }
      tasks := #[{ state := .running, activity := .driven }]
      nextHeap := base + 1
      log := vm.log }
  s.note "runtime booted"

/-- Changes a task. -/
def modifyTask (s : TaskSystem) (t : Nat) (f : Task → Task) : TaskSystem :=
  { s with tasks := s.tasks.modify t f }

/-- What a request leads to. -/
inductive Served where
  | answer (a : Machine.Answer) (s : TaskSystem)
  /-- It cannot be answered yet. -/
  | wait
  | fatal (f : Fatal)

/-- Adds a task that will call a value. -/
def spawnTask (s : TaskSystem) (body : Packed) : Nat × TaskSystem :=
  let t := s.tasks.size
  let s :=
    { s with
      tasks := s.tasks.push { state := .created, activity := .ready body }
      unjoined := s.unjoined ++ [t] }
  (t, s.note s!"spawned task {t}")

/-- A task that is over counts as joined from now on. -/
def markJoined (s : TaskSystem) (t : Nat) : TaskSystem :=
  s.modifyTask t fun task => { task with state := .joined }

/-- Answers the request of a task. -/
def serve (s : TaskSystem) (asking : Nat) : Request → Served
  | .spawn body =>
    let (t, s) := s.spawnTask body
    .answer (.spawned ⟨s.number, t⟩) s
  | .send target message =>
    if target.system = s.number then
      .answer .sent (s.modifyTask target.number fun task =>
        { task with mailbox := task.mailbox.post message })
    else .answer .sent s
  | .receive =>
    match s.tasks[asking]? with
    | none => .wait
    | some task =>
      match task.mailbox.take? with
      | none => .wait
      | some (p, mailbox) =>
        .answer (.message p) (s.modifyTask asking fun task => { task with mailbox := mailbox })
  | .join target =>
    if target.system = s.number then
      match s.tasks[target.number]? with
      | none => .wait
      | some task =>
        match task.activity with
        | .dead => .fatal (.taskDied target.number)
        | .over =>
          match task.ending with
          | none => .fatal (.noOutcome target.number)
          | some e =>
            let s := s.markJoined target.number
            .answer (.joined e.packed) { s with unjoined := s.unjoined.filter (· != target.number) }
        | _ => .wait
    else .wait

end TaskSystem

namespace Vm

/-- The packed form of a raised value; one that cannot be sent is told by its text. -/
def packRaised (v : Ref) : Action Packed := fun vm =>
  match pack v vm with
  | .error (.raised _) vm =>
    (do
      let text ← display v
      return Packed.error text none []) vm
  | result => result

/-- The packed form of a result; one that cannot be sent is dropped. -/
def packResult (v : Ref) : Action Packed := fun vm =>
  match pack v vm with
  | .error (.raised e) vm =>
    (do
      trace Channels.task "task" fun vm => s!"task {vm.task.number} result dropped: {e.message}"
      return Packed.nil) vm
  | result => result

/-- How a task ends whose function came to the given result. -/
def endingOf : Except Error Ref → Action Ending
  | .ok v => do
    let p ← packResult v
    return .returned p
  | .error e => do
    let v ← raisedValue e
    let p ← packRaised v
    return .panicked p

end Vm

namespace TaskSystem

/-- How far a task got. -/
inductive Progress where
  /-- It has to wait. -/
  | idle
  | moved (s : TaskSystem)
  | fatal (f : Fatal) (s : TaskSystem)

/-- Ends a task: its mailbox is closed and its ending kept for those who join it. -/
def finishTask (s : TaskSystem) (t : Nat) (vm : Vm) (e : Ending) : TaskSystem :=
  let (_, s) := s.absorb vm
  let s := s.note s!"task {t} {e.verb}"
  let unread := (s.tasks[t]?.map fun task => task.mailbox.size).getD 0
  let s := if unread > 0 then s.note s!"task {t} left {unread} message(s) unread" else s
  s.modifyTask t fun task =>
    { state := .finished, activity := .over, mailbox := task.mailbox.close.2, ending := some e }

/-- Ends a task whose function came to a result. -/
def conclude (s : TaskSystem) (t : Nat) (vm : Vm) (result : Except Error Ref) : Progress :=
  match Vm.endingOf result vm with
  | .ok e vm => .moved (s.finishTask t vm e)
  | .error (.fatal f) vm => .fatal f (s.absorb vm).2
  | .error _ vm =>
    let (_, s) := s.absorb vm
    .moved (s.modifyTask t fun task => { task with activity := .dead })

/-- Takes note of where a task stopped. -/
def settle (s : TaskSystem) (t : Nat) : Outcome → Progress
  | .done vm result => s.conclude t vm result
  | .next m | .blocked m _ =>
    let (vm, s) := s.absorb m.vm
    .moved (s.modifyTask t fun task => { task with activity := .paused { m with vm := vm } })
  | .fatal vm f => .fatal f (s.absorb vm).2
  | .crashed vm =>
    let (_, s) := s.absorb vm
    .moved (s.modifyTask t fun task => { task with activity := .dead })

/-- Runs a task from where a step left it. -/
def runFrom (s : TaskSystem) (fuel t : Nat) : Outcome → Progress
  | .next m => s.settle t (m.run fuel)
  | o => s.settle t o

/-- Begins a task: a heap of its own, the function copied into it, and a call without arguments. -/
def begin (s : TaskSystem) (fuel t : Nat) (body : Packed) : Progress :=
  let vm := Vm.boot s.registry s.config s.nextHeap ⟨s.number, t⟩
  let s := { s with nextHeap := s.nextHeap + 1 }
  let s := s.modifyTask t fun task => { task with state := .running }
  match Vm.unpack body vm with
  | .ok callee vm => s.runFrom fuel t (.next ⟨vm, [.guard], .calling callee []⟩)
  | .error (.raised e) vm => s.conclude t vm (.error e)
  | .error (.fatal f) vm => s.settle t (.fatal vm f)
  | .error .crashed vm => s.settle t (.crashed vm)

/-- Lets a task run until it has to wait or is over. -/
def advance (s : TaskSystem) (fuel t : Nat) : Progress :=
  match s.tasks[t]? with
  | none => .idle
  | some task =>
    match task.activity with
    | .ready body => s.begin fuel t body
    | .paused m =>
      match m.mode with
      | .waiting request =>
        match s.serve t request with
        | .wait => .idle
        | .fatal f => .fatal f s
        | .answer a s =>
          s.runFrom fuel t (m.resume a)
      | _ => s.runFrom fuel t (.next m)
    | .driven | .over | .dead => .idle

/-- Lets the first of some tasks run that does not have to wait. -/
def advanceFirst (s : TaskSystem) (fuel : Nat) : List Nat → Progress
  | [] => .idle
  | t :: rest =>
    match s.advance fuel t with
    | .idle => s.advanceFirst fuel rest
    | p => p

/-- Lets some task run other than the main one. -/
def advanceAny (s : TaskSystem) (fuel : Nat) : Progress :=
  s.advanceFirst fuel (List.range s.tasks.size)

/-- How something that the embedding program asked for ends. -/
inductive Verdict where
  | value (r : Ref)
  | raised (e : Error)
  | fatal (f : Fatal)
  | crashed
  /-- Every task waits for another one, or the steps allowed were not enough. -/
  | stuck

/-- Puts the main task back and takes its trace lines. -/
def restore (s : TaskSystem) (vm : Vm) : TaskSystem :=
  let (vm, s) := s.absorb vm
  { s with main := vm }

/-- Drives the main task, and the others whenever it has to wait. -/
def drive (s : TaskSystem) (fuel : Nat) : Nat → Outcome → Verdict × TaskSystem
  | 0, .next m | 0, .blocked m _ => (.stuck, s.restore m.vm)
  | _, .done vm (.ok r) => (.value r, s.restore vm)
  | _, .done vm (.error e) => (.raised e, s.restore vm)
  | _, .fatal vm f => (.fatal f, s.restore vm)
  | _, .crashed vm => (.crashed, s.restore vm)
  | rounds + 1, .next m =>
    match m.run fuel with
    | .next m => (.stuck, s.restore m.vm)
    | o => s.drive fuel rounds o
  | rounds + 1, .blocked m request =>
    let (vm, s) := s.absorb m.vm
    let m := { m with vm := vm }
    match s.serve 0 request with
    | .answer a s => s.drive fuel rounds (m.resume a)
    | .fatal f => (.fatal f, s.restore m.vm)
    | .wait =>
      match s.advanceAny fuel with
      | .idle => (.stuck, s.restore m.vm)
      | .moved s => s.drive fuel rounds (.blocked m request)
      | .fatal f s => (.fatal f, s.restore m.vm)

/-- Steps that one task may make without waiting. -/
def fuel : Nat := 1000000000000000

/-- Turns that the tasks may take. -/
def rounds : Nat := 1000000000000000

/-- Lets the main task do something and waits for the result. -/
def perform (s : TaskSystem) (konts : List Kont) (mode : Mode) : Verdict × TaskSystem :=
  let vm := s.main
  let s := { s with main := default }
  s.drive fuel rounds (.next ⟨vm, konts, mode⟩)

/-- An action of the main task that needs no other one. -/
def act {α : Type} (s : TaskSystem) (a : Action α) : Except Stop α × TaskSystem :=
  let vm := s.main
  let s := { s with main := default }
  match a vm with
  | .ok x vm => (.ok x, s.restore vm)
  | .error e vm => (.error e, s.restore vm)

/-- Lets the main task make a request and waits for the answer. -/
def ask (s : TaskSystem) (request : Action Request) : Verdict × TaskSystem :=
  match s.act request with
  | (.ok r, s) => s.perform [] (.waiting r)
  | (.error (.raised e), s) => (.raised e, s)
  | (.error (.fatal f), s) => (.fatal f, s)
  | (.error .crashed, s) => (.crashed, s)

/-- Calls an object. -/
def call (s : TaskSystem) (callee : Ref) (args : List Ref) : Verdict × TaskSystem :=
  s.perform [] (.calling callee args)

/-- Calls an object; any failure is told as a raised value. -/
def invoke (s : TaskSystem) (callee : Ref) (args : List Ref) : Verdict × TaskSystem :=
  s.perform [.guard] (.calling callee args)

/-- Makes an instance of a class. -/
def instantiate (s : TaskSystem) (cls : Ref) (args : List Ref) : Verdict × TaskSystem :=
  s.perform [] (.constructing cls args)

/-- Why a wait for tasks has no result. -/
inductive Halt where
  | fatal (f : Fatal)
  /-- Every task waits for another one, or the turns allowed were not enough. -/
  | stuck

/-- Lets tasks run until one of them is over. -/
def waitFor (s : TaskSystem) (fuel t : Nat) : Nat → Except Halt Unit × TaskSystem
  | 0 => (.error .stuck, s)
  | rounds + 1 =>
    match s.tasks[t]? with
    | none => (.error .stuck, s)
    | some task =>
      match task.activity with
      | .over => (.ok (), s.markJoined t)
      | .dead => (.error (.fatal (.taskDied t)), s)
      | _ =>
        match s.advanceAny fuel with
        | .idle => (.error .stuck, s)
        | .moved s => s.waitFor fuel t rounds
        | .fatal f s => (.error (.fatal f), s)

/-- Waits for each of some tasks unless it was joined; counts those waited for. -/
def waitForAll (s : TaskSystem) : List Nat → Nat → Except Halt Nat × TaskSystem
  | [], waited => (.ok waited, s)
  | t :: rest, waited =>
    if (s.tasks[t]?.map Task.state) = some .joined then s.waitForAll rest waited
    else
      match s.waitFor fuel t rounds with
      | (.ok (), s) => s.waitForAll rest (waited + 1)
      | (.error h, s) => (.error h, s)

/-- Waits for the tasks that were not joined, and for those that they spawn in the meantime. -/
def drain (s : TaskSystem) : Nat → Nat → Except Halt Nat × TaskSystem
  | 0, _ => (.error .stuck, s)
  | rounds + 1, waited =>
    match s.unjoined with
    | [] => (.ok waited, s)
    | pending =>
      match { s with unjoined := [] }.waitForAll pending waited with
      | (.ok waited, s) => s.drain rounds waited
      | (.error h, s) => (.error h, s)

/-- Waits for every task that nobody has joined; answers how many there were, and 0 if the tasks
wait for each other. -/
def shutdown (s : TaskSystem) : Except Fatal Nat × TaskSystem :=
  match s.drain rounds 0 with
  | (.ok waited, s) => (.ok waited, s.note s!"shutdown waited on {waited} task(s)")
  | (.error (.fatal f), s) => (.error f, s)
  | (.error .stuck, s) => (.ok 0, s)

end TaskSystem
end ObjectMachine
