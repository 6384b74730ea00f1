import Mathlib.Logic.Function.Basic
import ObjectMachine.TaskSystem

/-!
# ObjectMachine.Proofs.Tasks.Threads

The lives of tasks, when every task has a thread and the threads run in any order.

The parts of a task that several threads use are its state, its ending, and a slot for the handle of
its thread, which has a lock. The lock is taken before the thread is started and kept until the
handle is in the slot. Who waits for a task takes the lock, and the handle if it is still there;
then it waits for the thread to exit, marks the task as joined and gives the lock back. The
messages of tasks play no part here.

* `Stage` — where a thread stands between two of its indivisible steps.
* `Threads` — the threads, what they share, and the list of tasks that nobody has joined.
* `Threads.step` — the next step of one thread; `none` if it has to wait, or is at its end.
* `Threads.run` — steps of threads in any order.
-/

namespace ObjectMachine

/-- How far a thread is with starting another one. -/
inductive Spawning where
  /-- It has the lock of the new task. -/
  | start
  | store
  | unlock
  | track
deriving DecidableEq

/-- How far a thread is with waiting for a task. -/
inductive Waiting where
  | lock
  /-- It has the lock. -/
  | take
  /-- It has taken the handle. -/
  | exit
  /-- The thread of the task has exited. -/
  | mark
  | unlock
  | read
deriving DecidableEq

inductive Stage where
  | unborn
  | started
  /-- It does what its program says. -/
  | working
  | spawning (child : Nat) (phase : Spawning)
  | joining (target : Nat) (phase : Waiting)
  /-- It has read the ending of a task, and still has it in the list. -/
  | untracking (target : Nat) (seen : Option Ending)
  /-- It is about to take the whole list. -/
  | collecting (waited : Nat)
  /-- It looks after tasks of the list one by one. -/
  | examining (pending : List Nat) (waited : Nat)
  | awaiting (target : Nat) (phase : Waiting) (pending : List Nat) (waited : Nat)
  /-- It has found the list empty. -/
  | departing (waited : Nat)
  /-- Its program has come to an end. -/
  | closing (e : Ending)
  | keeping (e : Ending)
  /-- Its ending is there for others. -/
  | finishing
  | leaving
  | exited
  /-- It died of a crash of its host. -/
  | dead

/-- What several threads use of a task. -/
structure Shared where
  state : TaskState := .created
  /-- The thread that has the lock of the slot. -/
  lock : Option Nat := none
  /-- Whether the handle of the thread is in the slot. -/
  handle : Bool := false
  ending : Option Ending := none

structure Threads where
  /-- The number of tasks. The main task is task 0. -/
  size : Nat
  stage : Nat → Stage
  shared : Nat → Shared
  /-- The tasks that nobody has joined. -/
  unjoined : List Nat := []
  /-- Why the whole system stopped. -/
  fault : Option Fatal := none

namespace Threads

/-- The main task alone. -/
def boot : Threads where
  size := 1
  stage t := if t = 0 then .working else .unborn
  shared t := if t = 0 then { state := .running } else {}

/-- What a program goes on with, where it has a choice. -/
inductive Choice where
  /-- There is only one way to go on. -/
  | go
  | spawn
  | join (target : Nat)
  /-- The program ends. -/
  | finish (e : Ending)
  | crash
  /-- The main task waits for all others. -/
  | shutdown

def move (s : Threads) (t : Nat) (g : Stage) : Threads :=
  { s with stage := Function.update s.stage t g }

def change (s : Threads) (n : Nat) (f : Shared → Shared) : Threads :=
  { s with shared := Function.update s.shared n (f (s.shared n)) }

@[simp] theorem stage_move_self (s : Threads) (t : Nat) (g : Stage) : (s.move t g).stage t = g :=
  Function.update_self ..

theorem stage_move_ne {s : Threads} {t p : Nat} (h : p ≠ t) (g : Stage) :
    (s.move t g).stage p = s.stage p :=
  Function.update_of_ne h ..

@[simp] theorem shared_move (s : Threads) (t : Nat) (g : Stage) :
    (s.move t g).shared = s.shared := rfl

@[simp] theorem stage_change (s : Threads) (n : Nat) (f : Shared → Shared) :
    (s.change n f).stage = s.stage := rfl

@[simp] theorem shared_change_self (s : Threads) (n : Nat) (f : Shared → Shared) :
    (s.change n f).shared n = f (s.shared n) :=
  Function.update_self ..

theorem shared_change_ne {s : Threads} {n m : Nat} (h : m ≠ n) (f : Shared → Shared) :
    (s.change n f).shared m = s.shared m :=
  Function.update_of_ne h ..

/-- Adds a task, of which a thread has the lock. -/
def create (s : Threads) (t : Nat) : Threads :=
  { s with
    size := s.size + 1
    shared := Function.update s.shared s.size { lock := some t } }

/-- Takes a task off the list. -/
def untrack (s : Threads) (n : Nat) : Threads :=
  { s with unjoined := s.unjoined.filter (· ≠ n) }

/-- The next step of thread `t` in waiting for task `n`. -/
def wait (s : Threads) (t n : Nat) (again : Waiting → Stage) (done : Option Ending → Stage) :
    Waiting → Option Threads
  | .lock =>
    if (s.shared n).lock = none then
      some ((s.change n fun x => { x with lock := some t }).move t (again .take))
    else none
  | .take =>
    if (s.shared n).handle then
      some ((s.change n fun x => { x with handle := false }).move t (again .exit))
    else some (s.move t (again .unlock))
  | .exit =>
    match s.stage n with
    | .exited => some (s.move t (again .mark))
    | .dead => some { s with fault := some (.taskDied n) }
    | _ => none
  | .mark => some ((s.change n fun x => { x with state := .joined }).move t (again .unlock))
  | .unlock => some ((s.change n fun x => { x with lock := none }).move t (again .read))
  | .read => some (s.move t (done (s.shared n).ending))

/-- The next step of thread `t` in starting the thread of task `n`. -/
def spawn (s : Threads) (t n : Nat) : Spawning → Threads
  | .start => (s.move n .started).move t (.spawning n .store)
  | .store => (s.change n fun x => { x with handle := true }).move t (.spawning n .unlock)
  | .unlock => (s.change n fun x => { x with lock := none }).move t (.spawning n .track)
  | .track => { s with unjoined := s.unjoined ++ [n] }.move t .working

/-- What thread `t` does if it has a choice. -/
def choose (s : Threads) (t : Nat) : Choice → Option Threads
  | .go => none
  | .spawn => some ((s.create t).move t (.spawning s.size .start))
  | .join n =>
    if n ≠ t ∧ 0 < n ∧ n < s.size then some (s.move t (.joining n .lock)) else none
  | .finish e => if t ≠ 0 then some (s.move t (.closing e)) else none
  | .crash => if t ≠ 0 then some (s.move t .dead) else none
  | .shutdown => if t = 0 then some (s.move t (.collecting 0)) else none

/-- The only step that thread `t` can make. -/
def proceed (s : Threads) (t : Nat) : Option Threads :=
  match s.stage t with
  | .unborn | .working | .exited | .dead => none
  | .started => some ((s.change t fun x => { x with state := .running }).move t .working)
  | .spawning n phase => some (s.spawn t n phase)
  | .joining n phase => s.wait t n (.joining n) (.untracking n) phase
  | .untracking n (some _) => some ((s.untrack n).move t .working)
  | .untracking n none => some { s.untrack n with fault := some (.noOutcome n) }
  | .collecting waited =>
    match s.unjoined with
    | [] => some (s.move t (.departing waited))
    | pending => some ({ s with unjoined := [] }.move t (.examining pending waited))
  | .examining [] waited => some (s.move t (.collecting waited))
  | .examining (n :: pending) waited =>
    if (s.shared n).state = .joined then some (s.move t (.examining pending waited))
    else some (s.move t (.awaiting n .lock pending waited))
  | .awaiting n phase pending waited =>
    s.wait t n (.awaiting n · pending waited) (fun _ => .examining pending (waited + 1)) phase
  | .departing _ => some (s.move t .working)
  | .closing e => some (s.move t (.keeping e))
  | .keeping e => some ((s.change t fun x => { x with ending := some e }).move t .finishing)
  | .finishing => some ((s.change t fun x => { x with state := .finished }).move t .leaving)
  | .leaving => some (s.move t .exited)

/-- The next step of thread `t`. -/
def step (s : Threads) (t : Nat) (c : Choice) : Option Threads :=
  match s.fault, s.stage t, c with
  | some _, _, _ => none
  | none, .working, c => s.choose t c
  | none, _, .go => s.proceed t
  | none, _, _ => none

/-- Steps of threads in the given order. -/
def run (s : Threads) : List (Nat × Choice) → Option Threads
  | [] => some s
  | (t, c) :: rest => (s.step t c).bind fun s => s.run rest

end Threads
end ObjectMachine
