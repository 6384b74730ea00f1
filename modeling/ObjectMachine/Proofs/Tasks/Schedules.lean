import ObjectMachine.Proofs.Tasks.Joining

/-!
# ObjectMachine.Proofs.Tasks.Schedules

The order in which a task system lets its tasks run is one of the orders in which their threads
could have run.

* `TaskSystem.threads` — the threads of a system, none of them halfway.
* `TaskSystem.Follows` — the threads got where they are by steps of theirs.
* `TaskSystem.Serves` — what an answer to a request makes of a system.
* `Follows.advance`, `Follows.drive`, `Follows.drain` — this is kept by all that a system does.
* `TaskSystem.drain_over` — so a system that has waited for its tasks has none that goes on.
* `TaskSystem.serve_ending` — and no join finds a task over whose ending is missing.
-/

namespace ObjectMachine
namespace Threads

variable {s : Threads} {t n : Nat}

theorem change_same {f : Shared → Shared} (h : f (s.shared n) = s.shared n) :
    s.change n f = s := by
  rw [change, h, Function.update_eq_self]

theorem move_move (s : Threads) (t : Nat) (g g' : Stage) :
    (s.move t g).move t g' = s.move t g' := by
  simp [move]

/-! ## Threads that are left to themselves -/

theorem step_go (hfault : s.fault = none) (ht : s.stage t ≠ .working) :
    s.step t .go = s.proceed t := by
  unfold step
  split <;> simp_all

theorem start_alone (hfault : s.fault = none) (ht : s.stage t = .started) :
    s.run (goes t 1) =
      some ((s.change t fun x => { x with state := .running }).move t .working) := by
  simp [run, step, proceed, goes, hfault, ht]

theorem spawn_alone (hfault : s.fault = none) (ht : s.stage t = .working) (hlt : t < s.size) :
    s.run ((t, .spawn) :: goes t 4) = some
      { s with
        size := s.size + 1
        stage := Function.update s.stage s.size .started
        shared := Function.update s.shared s.size { handle := true }
        unjoined := s.unjoined ++ [s.size] } := by
  have hne : t ≠ s.size := Nat.ne_of_lt hlt
  have hstage : ∀ g, Function.update (Function.update (Function.update s.stage t g) s.size .started)
      t .working = Function.update s.stage s.size .started := by
    intro g
    rw [Function.update_comm hne, Function.update_idem, Function.update_comm hne.symm, ← ht,
      Function.update_eq_self]
  simp [run, step, choose, proceed, goes, List.replicate, hfault, ht, spawn, create, move, change,
    hstage]

theorem finish_alone (hfault : s.fault = none) (ht : s.stage t = .working) (hpos : t ≠ 0)
    (e : Ending) :
    s.run ((t, .finish e) :: goes t 4) = some ((s.change t fun x =>
      { x with state := .finished, ending := some e }).move t .exited) := by
  simp [run, step, choose, proceed, goes, List.replicate, hfault, ht, hpos, move, change]

theorem crash_alone (hfault : s.fault = none) (ht : s.stage t = .working) (hpos : t ≠ 0) :
    s.run [(t, .crash)] = some (s.move t .dead) := by
  simp [run, step, choose, hfault, ht, hpos]

/-- A task whose thread has exited is joined once and for all. -/
def settled (s : Threads) (n : Nat) : Threads :=
  s.change n fun x => { x with state := .joined, handle := false }

theorem join_alone (hfault : s.fault = none) (ht : s.stage t = .working) (hne : n ≠ t)
    (hpos : 0 < n) (hlt : n < s.size) (hlock : (s.shared n).lock = none)
    (hhandle : (s.shared n).handle = decide ((s.shared n).state ≠ .joined))
    (hn : s.stage n = .exited) (hsome : (s.shared n).ending.isSome) :
    ∃ k, s.run ((t, .join n) :: goes t k) = some ((s.settled n).untrack n) := by
  obtain ⟨e, he⟩ := Option.isSome_iff_exists.mp hsome
  by_cases hj : (s.shared n).state = .joined
  · refine ⟨5, ?_⟩
    have hfalse : (s.shared n).handle = false := by simp [hhandle, hj]
    simp [run, step, choose, proceed, goes, List.replicate, hfault, ht, wait, hne, hpos, hlt,
      hlock, hj, hfalse, he, move, change, untrack, settled]
  · refine ⟨7, ?_⟩
    have htrue : (s.shared n).handle = true := by simp [hhandle, hj]
    simp [run, step, choose, proceed, goes, List.replicate, hfault, ht, wait, hne, hpos, hlt,
      hlock, hn, htrue, he, move, change, untrack, settled]

theorem await_alone {pending : List Nat} {waited : Nat} (hfault : s.fault = none)
    (h0 : s.stage 0 = .awaiting n .lock pending waited) (hpos : n ≠ 0)
    (hlock : (s.shared n).lock = none)
    (hhandle : (s.shared n).handle = decide ((s.shared n).state ≠ .joined))
    (hn : s.stage n = .exited) :
    ∃ k, s.run (goes 0 k) = some ((s.settled n).move 0 (.examining pending (waited + 1))) := by
  by_cases hj : (s.shared n).state = .joined
  · refine ⟨4, ?_⟩
    have hfalse : (s.shared n).handle = false := by simp [hhandle, hj]
    simp [run, step, proceed, goes, List.replicate, hfault, h0, wait, hlock, hj,
      hfalse, move, change, settled]
  · refine ⟨6, ?_⟩
    have htrue : (s.shared n).handle = true := by simp [hhandle, hj]
    simp [run, step, proceed, goes, List.replicate, hfault, h0, wait, hpos,
      hlock, hn, htrue, move, change, settled]

end Threads

/-! ## The threads of a system -/

/-- Where the thread of a task stands. -/
def Activity.stage : Activity → Stage
  | .driven | .paused _ => .working
  | .ready _ => .started
  | .over => .exited
  | .dead => .dead

/-- What others see of a task, when its thread has been started and nobody has the lock. -/
def Task.shared (task : Task) : Shared :=
  { state := task.state, handle := decide (task.state ≠ .joined), ending := task.ending }

namespace TaskSystem

/-- The threads of a system, with the stage of the main thread, which is not on record. -/
def threads (s : TaskSystem) (main : Stage) : Threads where
  size := s.tasks.size
  stage t := if t = 0 then main else (s.tasks[t]?.map fun task => task.activity.stage).getD .unborn
  shared t :=
    if t = 0 then { state := .running } else (s.tasks[t]?.map Task.shared).getD {}
  unjoined := s.unjoined

section

variable {s : TaskSystem} {t : Nat} {task : Task}

@[simp] theorem threads_stage_main (s : TaskSystem) (main : Stage) :
    (s.threads main).stage 0 = main := rfl

theorem threads_stage (main : Stage) (ht : t ≠ 0) (htask : s.tasks[t]? = some task) :
    (s.threads main).stage t = task.activity.stage := by
  simp [threads, ht, htask]

theorem threads_shared (main : Stage) (ht : t ≠ 0) (htask : s.tasks[t]? = some task) :
    (s.threads main).shared t = task.shared := by
  simp [threads, ht, htask]

theorem threads_move_main (s : TaskSystem) (main main' : Stage) :
    (s.threads main).move 0 main' = s.threads main' := by
  simp only [threads, Threads.move, Threads.mk.injEq, true_and, and_true]
  funext p
  by_cases hp : p = 0
  · simp [hp]
  · simp [hp]

/-- A change of a task shows where its thread stands and in what others see of it. -/
theorem threads_modifyTask (main : Stage) (ht : t ≠ 0) (htask : s.tasks[t]? = some task)
    (f : Task → Task) :
    (s.modifyTask t f).threads main =
      ((s.threads main).change t fun _ => (f task).shared).move t (f task).activity.stage := by
  simp only [threads, modifyTask, Threads.move, Threads.change, Threads.mk.injEq, Array.size_modify,
    Array.getElem?_modify, true_and, and_true]
  constructor
  · funext p
    by_cases hp : p = t
    · subst hp
      simp [ht, htask]
    · simp [hp, Ne.symm hp]
  · funext p
    by_cases hp : p = t
    · subst hp
      simp [ht, htask]
    · simp [hp, Ne.symm hp]

/-- A change that others do not see. -/
theorem threads_modifyTask_same {main : Stage} {f : Task → Task}
    (hf : ∀ task, (f task).shared = task.shared ∧ (f task).activity.stage = task.activity.stage) :
    (s.modifyTask t f).threads main = s.threads main := by
  simp only [threads, modifyTask, Threads.mk.injEq, Array.size_modify, Array.getElem?_modify,
    true_and, and_true]
  constructor
  · funext p
    by_cases hp : t = p
    · subst hp
      cases s.tasks[t]? <;> simp [hf]
    · simp [hp]
  · funext p
    by_cases hp : t = p
    · subst hp
      cases s.tasks[t]? <;> simp [hf]
    · simp [hp]

@[simp] theorem threads_note (s : TaskSystem) (text : String) (main : Stage) :
    (s.note text).threads main = s.threads main := by
  unfold note
  split <;> rfl

@[simp] theorem threads_absorb (s : TaskSystem) (vm : Vm) (main : Stage) :
    (s.absorb vm).2.threads main = s.threads main := by
  unfold absorb
  split <;> rfl

end

/-- What a task is doing. -/
def activity? (s : TaskSystem) (t : Nat) : Option Activity :=
  s.tasks[t]?.map Task.activity

/-- The threads of a system got where they are by steps of theirs. -/
structure Follows (s : TaskSystem) (main : Stage) : Prop where
  driven : s.activity? 0 = some .driven
  schedule : ∃ schedule, Threads.boot.run schedule = some (s.threads main)

theorem activity?_modifyTask_ne {s : TaskSystem} {t p : Nat} (hp : p ≠ t) (f : Task → Task) :
    (s.modifyTask t f).activity? p = s.activity? p := by
  simp [activity?, modifyTask, Array.getElem?_modify, Ne.symm hp]

theorem activity?_modifyTask_same {s : TaskSystem} {t p : Nat} {f : Task → Task}
    (hf : ∀ task, (f task).activity = task.activity) :
    (s.modifyTask t f).activity? p = s.activity? p := by
  by_cases hp : t = p
  · subst hp
    cases htask : s.tasks[t]? <;> simp [activity?, modifyTask, Array.getElem?_modify, htask, hf]
  · exact activity?_modifyTask_ne (Ne.symm hp) f

@[simp] theorem tasks_note (s : TaskSystem) (text : String) : (s.note text).tasks = s.tasks := by
  unfold note
  split <;> rfl

@[simp] theorem tasks_absorb (s : TaskSystem) (vm : Vm) : (s.absorb vm).2.tasks = s.tasks := by
  unfold absorb
  split <;> rfl

@[simp] theorem activity?_note (s : TaskSystem) (text : String) (t : Nat) :
    (s.note text).activity? t = s.activity? t := by
  simp [activity?]

@[simp] theorem activity?_absorb (s : TaskSystem) (vm : Vm) (t : Nat) :
    (s.absorb vm).2.activity? t = s.activity? t := by
  simp [activity?]

theorem activity?_spawnTask {s : TaskSystem} {t : Nat} (ht : t ≠ s.tasks.size) (body : Packed) :
    (s.spawnTask body).2.activity? t = s.activity? t := by
  simp only [spawnTask, activity?_note]
  rw [activity?, Array.getElem?_push, if_neg ht, activity?]

namespace Follows

variable {s s' : TaskSystem} {main : Stage} {a t : Nat}

theorem sound (h : s.Follows main) : (s.threads main).Sound := by
  obtain ⟨schedule, hrun⟩ := h.schedule
  exact Threads.boot_sound.run hrun

theorem extend (h : s.Follows main) {main' : Stage} (hdriven : s'.activity? 0 = some .driven)
    {schedule : List (Nat × Threads.Choice)}
    (hrun : (s.threads main).run schedule = some (s'.threads main')) : s'.Follows main' := by
  obtain ⟨before, hbefore⟩ := h.schedule
  refine ⟨hdriven, before ++ schedule, ?_⟩
  rw [Threads.run_append, hbefore, Option.bind_some, hrun]

/-- Nothing happened that a thread would show. -/
theorem same (h : s.Follows main) (hdriven : s'.activity? 0 = s.activity? 0)
    (hthreads : s'.threads main = s.threads main) : s'.Follows main :=
  ⟨hdriven.trans h.driven, hthreads ▸ h.schedule⟩

theorem boot (registry : Registry) (config : Config) (base : Nat) :
    (TaskSystem.boot registry config base).Follows .working := by
  refine ⟨?_, [], ?_⟩
  · simp only [TaskSystem.boot, activity?_note]
    rfl
  simp only [Threads.run, TaskSystem.boot, threads_note, Option.some.injEq]
  simp only [Threads.boot, threads, Threads.mk.injEq, and_true]
  refine ⟨rfl, ?_, ?_⟩
  · funext p
    by_cases hp : p = 0
    · simp [hp]
    · simp [hp]
  · funext p
    by_cases hp : p = 0
    · simp [hp]
    · simp [hp]

theorem ne_main (h : s.Follows main) {x : Activity} (ht : s.activity? t = some x)
    (hx : x ≠ .driven) : t ≠ 0 := by
  rintro rfl
  rw [h.driven] at ht
  exact hx (Option.some.inj ht).symm

theorem spawnTask (h : s.Follows main) (ha : (s.threads main).stage a = .working)
    (body : Packed) : (s.spawnTask body).2.Follows main := by
  have hlt : a < s.tasks.size := by
    refine Nat.lt_of_not_le fun hle => ?_
    rw [(h.sound.beyond a hle).1] at ha
    cases ha
  have hpos : 0 < s.tasks.size := Nat.lt_of_le_of_lt (Nat.zero_le a) hlt
  refine h.extend ?_ ((Threads.spawn_alone rfl ha hlt).trans ?_)
  · exact (activity?_spawnTask (Nat.ne_of_lt hpos) body).trans h.driven
  · simp only [TaskSystem.spawnTask, threads_note]
    simp only [threads, Array.size_push, Option.some.injEq, Threads.mk.injEq, true_and, and_true]
    constructor
    · funext p
      by_cases hp : p = s.tasks.size
      · subst hp
        simp [Nat.ne_of_gt hpos, Activity.stage]
      · simp [hp, Array.getElem?_push]
    · funext p
      by_cases hp : p = s.tasks.size
      · subst hp
        simp [Nat.ne_of_gt hpos, Task.shared]
      · simp [hp, Array.getElem?_push]

/-- Two tasks that differ only in what others do not see. -/
theorem modifyTask_same (h : s.Follows main) {f : Task → Task}
    (hf : ∀ task, (f task).shared = task.shared ∧ (f task).activity = task.activity) :
    (s.modifyTask t f).Follows main :=
  h.same (activity?_modifyTask_same fun task => (hf task).2)
    (threads_modifyTask_same fun task => ⟨(hf task).1, congrArg Activity.stage (hf task).2⟩)

end Follows

theorem activity?_eq_some {s : TaskSystem} {t : Nat} {x : Activity} :
    s.activity? t = some x ↔ ∃ task, s.tasks[t]? = some task ∧ task.activity = x :=
  Option.map_eq_some_iff

/-- What a system comes to when it answers a request of the task `a`. -/
inductive Serves (s : TaskSystem) (a : Nat) : TaskSystem → Prop where
  | spawn (body : Packed) : Serves s a (s.spawnTask body).2
  | send (t : Nat) (message : Packed) :
      Serves s a (s.modifyTask t fun task => { task with mailbox := task.mailbox.post message })
  /-- A message to a task of another system. -/
  | lost : Serves s a s
  | receive {task : Task} {p : Packed} {mailbox : Mailbox Packed} : s.tasks[a]? = some task →
      task.mailbox.take? = some (p, mailbox) →
      Serves s a (s.modifyTask a fun task => { task with mailbox := mailbox })
  | join {t : Nat} {task : Task} {e : Ending} : s.tasks[t]? = some task →
      task.activity = .over → task.ending = some e →
      Serves s a { s.markJoined t with
        unjoined := (s.markJoined t).unjoined.filter (· != t) }

theorem serve_serves {s s' : TaskSystem} {a : Nat} {request : Request} {answer : Machine.Answer}
    (hs' : s.serve a request = .answer answer s') : s.Serves a s' := by
  cases request with
  | spawn body =>
    cases hs'
    exact .spawn body
  | send target message =>
    simp only [serve] at hs'
    split at hs'
    · cases hs'
      exact .send _ message
    · cases hs'
      exact .lost
  | receive =>
    simp only [serve] at hs'
    split at hs'
    · cases hs'
    · rename_i task htask
      split at hs'
      · cases hs'
      · rename_i htake
        cases hs'
        exact .receive htask htake
  | join target =>
    simp only [serve] at hs'
    split at hs'
    · split at hs'
      · cases hs'
      · rename_i task htask
        split at hs'
        · cases hs'
        · rename_i hover
          split at hs'
          · cases hs'
          · rename_i hending
            cases hs'
            exact .join htask hover hending
        · cases hs'
    · cases hs'

/-- What the tasks are doing does not change when a request is answered. -/
theorem Serves.activity? {s s' : TaskSystem} {a p : Nat} {x : Activity} (h : s.Serves a s')
    (hp : s.activity? p = some x) : s'.activity? p = some x := by
  cases h with
  | spawn body =>
    have hlt : p ≠ s.tasks.size := by
      rintro rfl
      simp [TaskSystem.activity?] at hp
    exact (activity?_spawnTask hlt body).trans hp
  | lost => exact hp
  | send _ _ | receive _ _ | join _ _ _ =>
    exact (activity?_modifyTask_same (by exact fun _ => rfl)).trans hp

theorem threads_stage_of {s : TaskSystem} {main : Stage} {t : Nat} {x : Activity} (ht : t ≠ 0)
    (hx : s.activity? t = some x) : (s.threads main).stage t = x.stage := by
  obtain ⟨task, htask, rfl⟩ := activity?_eq_some.mp hx
  exact threads_stage _ ht htask

/-- Joining a task that is over. -/
theorem threads_markJoined {s : TaskSystem} {main : Stage} {t : Nat} {task : Task} (ht : t ≠ 0)
    (htask : s.tasks[t]? = some task) (hover : task.activity = .over) :
    (s.markJoined t).threads main = (s.threads main).settled t := by
  have hstage : (s.threads main).stage t = .exited := by
    rw [threads_stage _ ht htask, hover]
    rfl
  rw [markJoined, threads_modifyTask _ ht htask]
  simp [Threads.settled, Threads.change, Threads.move, threads_shared _ ht htask, Task.shared,
    hover, Activity.stage, ← hstage]

namespace Follows

variable {s s' : TaskSystem} {main : Stage} {a t : Nat}

/-- The ending of a task that is over is there. -/
theorem ending_isSome (h : s.Follows main) {task : Task} (htask : s.tasks[t]? = some task)
    (hover : task.activity = .over) : task.ending.isSome := by
  have ht : t ≠ 0 := h.ne_main (activity?_eq_some.mpr ⟨task, htask, hover⟩) nofun
  have hsuits := h.sound.suits t
  rw [threads_stage _ ht htask, threads_shared _ ht htask, hover] at hsuits
  exact hsuits.2

theorem serve (h : s.Follows main) (ha : (s.threads main).stage a = .working)
    (hs' : s.Serves a s') : s'.Follows main := by
  cases hs' with
  | spawn body => exact h.spawnTask ha body
  | send t message => exact h.modifyTask_same fun _ => ⟨rfl, rfl⟩
  | lost => exact h
  | receive _ _ => exact h.modifyTask_same fun _ => ⟨rfl, rfl⟩
  | @join t task e htask hover _ =>
    have hn : t ≠ 0 := h.ne_main (activity?_eq_some.mpr ⟨task, htask, hover⟩) nofun
    have hne : t ≠ a := by
      rintro rfl
      rw [threads_stage _ hn htask, hover] at ha
      cases ha
    have hlt : t < s.tasks.size := (Array.getElem?_eq_some_iff.mp htask).1
    obtain ⟨k, hrun⟩ := Threads.join_alone (s := s.threads main) rfl ha hne
      (Nat.pos_of_ne_zero hn) hlt (by rw [threads_shared _ hn htask]; rfl)
      (by rw [threads_shared _ hn htask]; rfl)
      (by rw [threads_stage _ hn htask, hover]; rfl)
      (by rw [threads_shared _ hn htask]; exact h.ending_isSome htask hover)
    refine h.extend ?_ (hrun.trans ?_)
    · exact (activity?_modifyTask_same (by exact fun _ => rfl)).trans h.driven
    · rw [← threads_markJoined hn htask hover]
      simp [threads, Threads.untrack, bne, beq_eq_decide]

end Follows

/-! ## A task that runs -/

/-- The threads of a system got where they are, but for a task that is just running: its thread is
working, whatever the record of it says. -/
structure Runs (s : TaskSystem) (main : Stage) (t : Nat) : Prop where
  spawned : t ≠ 0
  task : ∃ task, s.tasks[t]? = some task
  driven : s.activity? 0 = some .driven
  schedule : ∃ schedule, Threads.boot.run schedule = some ((s.threads main).move t .working)

theorem Follows.runs {s : TaskSystem} {main : Stage} {t : Nat} {m : Machine}
    (h : s.Follows main) (hpaused : s.activity? t = some (.paused m)) : s.Runs main t := by
  have ht : t ≠ 0 := h.ne_main hpaused nofun
  obtain ⟨task, htask, -⟩ := activity?_eq_some.mp hpaused
  have hstage : (s.threads main).stage t = .working := threads_stage_of ht hpaused
  refine ⟨ht, ⟨task, htask⟩, h.driven, ?_⟩
  rw [Threads.move, ← hstage, Function.update_eq_self]
  exact h.schedule

namespace Runs

variable {s s' : TaskSystem} {main : Stage} {t : Nat}

theorem absorb (h : s.Runs main t) (vm : Vm) : (s.absorb vm).2.Runs main t := by
  obtain ⟨ht, htask, hdriven, hschedule⟩ := h
  exact ⟨ht, by rwa [tasks_absorb], by rwa [activity?_absorb], by rwa [threads_absorb]⟩

theorem note (h : s.Runs main t) (text : String) : (s.note text).Runs main t := by
  obtain ⟨ht, htask, hdriven, hschedule⟩ := h
  exact ⟨ht, by rwa [tasks_note], by rwa [activity?_note], by rwa [threads_note]⟩

/-- The task is left at another stage. -/
theorem leave (h : s.Runs main t) {f : Task → Task} (schedule : List (Nat × Threads.Choice))
    (hrun : ∀ task, s.tasks[t]? = some task →
      ((s.threads main).move t .working).run schedule = some
        (((s.threads main).change t fun _ => (f task).shared).move t (f task).activity.stage)) :
    (s.modifyTask t f).Follows main := by
  obtain ⟨task, htask⟩ := h.task
  obtain ⟨before, hbefore⟩ := h.schedule
  refine ⟨?_, before ++ schedule, ?_⟩
  · rw [activity?_modifyTask_ne h.spawned.symm]
    exact h.driven
  · rw [Threads.run_append, hbefore, Option.bind_some, hrun task htask,
      threads_modifyTask _ h.spawned htask]

theorem pause (h : s.Runs main t) (m : Machine) :
    (s.modifyTask t fun task => { task with activity := .paused m }).Follows main := by
  refine h.leave [] fun task htask => ?_
  rw [Threads.change_same (threads_shared _ h.spawned htask).symm]
  rfl

theorem crash (h : s.Runs main t) :
    (s.modifyTask t fun task => { task with activity := .dead }).Follows main := by
  refine h.leave [(t, .crash)] fun task htask => ?_
  rw [Threads.crash_alone rfl (Threads.stage_move_self ..) h.spawned, Threads.move_move,
    Threads.change_same (threads_shared _ h.spawned htask).symm]
  rfl

theorem finish (h : s.Runs main t) (mailbox : Task → Mailbox Packed) (e : Ending) :
    (s.modifyTask t fun task =>
      { state := .finished, activity := .over, mailbox := mailbox task,
        ending := some e }).Follows main := by
  refine h.leave ((t, .finish e) :: Threads.goes t 4) fun task htask => ?_
  have hrunning : task.state = .running := by
    obtain ⟨schedule, hrun⟩ := h.schedule
    have hsuits := (Threads.boot_sound.run hrun).suits t
    rw [Threads.stage_move_self, Threads.shared_move, threads_shared _ h.spawned htask] at hsuits
    exact hsuits.1
  rw [Threads.finish_alone rfl (Threads.stage_move_self ..) h.spawned]
  simp [Threads.move, Threads.change, threads_shared _ h.spawned htask, Task.shared, hrunning,
    Activity.stage]

theorem finishTask (h : s.Runs main t) (vm : Vm) (e : Ending) :
    (s.finishTask t vm e).Follows main := by
  simp only [TaskSystem.finishTask]
  split
  · exact (((h.absorb vm).note _).note _).finish _ e
  · exact ((h.absorb vm).note _).finish _ e

theorem conclude (h : s.Runs main t) {vm : Vm} {result : Except Error Ref}
    (hs' : s.conclude t vm result = .moved s') : s'.Follows main := by
  unfold TaskSystem.conclude at hs'
  split at hs'
  · cases hs'
    exact h.finishTask _ _
  · cases hs'
  · cases hs'
    exact (h.absorb _).crash

theorem settle (h : s.Runs main t) {o : Outcome} (hs' : s.settle t o = .moved s') :
    s'.Follows main := by
  cases o with
  | done vm result => exact h.conclude hs'
  | next m | blocked m request =>
    cases hs'
    exact (h.absorb _).pause _
  | fatal vm f => cases hs'
  | crashed vm =>
    cases hs'
    exact (h.absorb _).crash

theorem runFrom (h : s.Runs main t) {fuel : Nat} {o : Outcome}
    (hs' : s.runFrom fuel t o = .moved s') : s'.Follows main := by
  cases o with
  | next m => exact h.settle hs'
  | done vm result | blocked m request | fatal vm f | crashed vm =>
    simp only [TaskSystem.runFrom] at hs'
    exact h.settle hs'

end Runs

namespace Follows

variable {s s' : TaskSystem} {main : Stage} {t fuel : Nat}

theorem begin {body : Packed} (h : s.Follows main) (hready : s.activity? t = some (.ready body))
    (hs' : s.begin fuel t body = .moved s') : s'.Follows main := by
  have ht : t ≠ 0 := h.ne_main hready nofun
  obtain ⟨task, htask, hactivity⟩ := activity?_eq_some.mp hready
  have hstage : (s.threads main).stage t = .started := threads_stage_of ht hready
  have hcreated : task.state = .created := by
    have hsuits := h.sound.suits t
    rw [hstage, threads_shared _ ht htask] at hsuits
    exact hsuits.1
  have hruns : ({ s with nextHeap := s.nextHeap + 1 }.modifyTask t fun task =>
      { task with state := .running }).Runs main t := by
    obtain ⟨schedule, hrun⟩ := h.schedule
    refine ⟨ht, ?_, ?_, schedule ++ Threads.goes t 1, ?_⟩
    · simp [modifyTask, Array.getElem?_modify, htask]
    · exact (activity?_modifyTask_ne ht.symm _).trans h.driven
    · have hview := threads_modifyTask main ht htask fun task =>
        { task with state := .running }
      change _ = some (((s.modifyTask t _).threads main).move t .working)
      rw [Threads.run_append, hrun, Option.bind_some, Threads.start_alone rfl hstage, hview,
        Threads.move_move]
      simp [Threads.change, threads_shared _ ht htask, Task.shared, hcreated]
  simp only [TaskSystem.begin] at hs'
  split at hs'
  · exact hruns.runFrom hs'
  · exact hruns.conclude hs'
  · exact hruns.settle hs'
  · exact hruns.settle hs'

theorem advance (h : s.Follows main) (hs' : s.advance fuel t = .moved s') : s'.Follows main := by
  unfold TaskSystem.advance at hs'
  split at hs'
  · cases hs'
  · rename_i task htask
    split at hs'
    · rename_i body hbody
      exact h.begin (activity?_eq_some.mpr ⟨task, htask, hbody⟩) hs'
    · rename_i m hm
      have hpaused : s.activity? t = some (.paused m) := activity?_eq_some.mpr ⟨task, htask, hm⟩
      split at hs'
      · split at hs'
        · cases hs'
        · cases hs'
        · rename_i hserve
          have hserves := serve_serves hserve
          have hfollows := h.serve (threads_stage_of (h.ne_main hpaused nofun) hpaused) hserves
          exact (hfollows.runs (hserves.activity? hpaused)).runFrom hs'
      · exact (h.runs hpaused).runFrom hs'
    · cases hs'
    · cases hs'
    · cases hs'

theorem advanceFirst (h : s.Follows main) {order : List Nat}
    (hs' : s.advanceFirst fuel order = .moved s') : s'.Follows main := by
  induction order with
  | nil => cases hs'
  | cons t rest ih =>
    rw [TaskSystem.advanceFirst] at hs'
    split at hs'
    · exact ih hs'
    · exact h.advance hs'

theorem advanceAny (h : s.Follows main) (hs' : s.advanceAny fuel = .moved s') : s'.Follows main :=
  h.advanceFirst hs'

/-! The main task. -/

theorem restore (h : s.Follows main) (vm : Vm) : (s.restore vm).Follows main := by
  refine h.same (activity?_absorb s vm 0) (threads_absorb s vm main)

/-- Whatever the embedding program lets the main task do. -/
theorem drive (h : s.Follows .working) {rounds : Nat} {o : Outcome} {v : Verdict}
    (hs' : s.drive fuel rounds o = (v, s')) (hv : ∀ f, v ≠ .fatal f) : s'.Follows .working := by
  induction rounds generalizing s o with
  | zero =>
    cases o with
    | done vm result =>
      cases result <;> cases hs' <;> exact h.restore _
    | next m | blocked m request | fatal vm f | crashed vm =>
      cases hs'
      exact h.restore _
  | succ rounds ih =>
    cases o with
    | done vm result =>
      cases result <;> cases hs' <;> exact h.restore _
    | fatal vm f | crashed vm =>
      cases hs'
      exact h.restore _
    | next m =>
      rw [TaskSystem.drive] at hs'
      split at hs'
      · cases hs'
        exact h.restore _
      · exact ih h hs'
    | blocked m request =>
      rw [TaskSystem.drive] at hs'
      have habsorb : (s.absorb m.vm).2.Follows .working :=
        h.same (activity?_absorb s m.vm 0) (threads_absorb s m.vm .working)
      dsimp only at hs'
      split at hs'
      · rename_i hserve
        exact ih (habsorb.serve rfl (serve_serves hserve)) hs'
      · cases hs'
        exact habsorb.restore _
      · split at hs'
        · cases hs'
          exact habsorb.restore _
        · rename_i hadvance
          exact ih (habsorb.advanceAny hadvance) hs'
        · cases hs'
          exact absurd rfl (hv _)

/-! Waiting for all tasks. -/

/-- The main thread makes the only step that it can make. -/
theorem main_step (h : s.Follows main) {main' : Stage} (hmain : main ≠ .working)
    (hdriven : s'.activity? 0 = s.activity? 0)
    (hproceed : (s.threads main).proceed 0 = some (s'.threads main')) : s'.Follows main' := by
  refine h.extend (hdriven.trans h.driven) (?_ : (s.threads main).run (Threads.goes 0 1) = _)
  have hstep : (s.threads main).step 0 .go = some (s'.threads main') :=
    (Threads.step_go rfl hmain).trans hproceed
  simp [Threads.goes, Threads.run, hstep]

theorem waitFor {pending : List Nat} {waited rounds : Nat} (ht : t ≠ 0)
    (h : s.Follows (.awaiting t .lock pending waited))
    (hs' : s.waitFor fuel t rounds = (.ok (), s')) :
    s'.Follows (.examining pending (waited + 1)) := by
  induction rounds generalizing s with
  | zero => cases hs'
  | succ rounds ih =>
    rw [TaskSystem.waitFor] at hs'
    split at hs'
    · cases hs'
    · rename_i task htask
      split at hs'
      · rename_i hover
        cases hs'
        have hstage := threads_stage (.awaiting t .lock pending waited) ht htask
        have hshared := threads_shared (.awaiting t .lock pending waited) ht htask
        obtain ⟨k, hrun⟩ := Threads.await_alone
          (s := s.threads (.awaiting t .lock pending waited)) rfl rfl ht
          (by rw [hshared]; rfl) (by rw [hshared]; rfl) (by rw [hstage, hover]; rfl)
        refine h.extend ?_ (hrun.trans ?_)
        · exact (activity?_modifyTask_same (by exact fun _ => rfl)).trans h.driven
        · rw [← threads_markJoined ht htask hover, threads_move_main]
      · cases hs'
      · split at hs'
        · cases hs'
        · rename_i hadvance
          exact ih (h.advanceAny hadvance) hs'
        · cases hs'

theorem waitForAll {pending : List Nat} {waited total : Nat}
    (h : s.Follows (.examining pending waited))
    (hs' : s.waitForAll pending waited = (.ok total, s')) : s'.Follows (.examining [] total) := by
  induction pending generalizing s waited with
  | nil =>
    cases hs'
    exact h
  | cons t rest ih =>
    obtain ⟨hpos, hlt⟩ := h.sound.listed t (.inr List.mem_cons_self)
    have ht : t ≠ 0 := Nat.ne_of_gt hpos
    obtain ⟨task, htask⟩ : ∃ task, s.tasks[t]? = some task :=
      ⟨s.tasks[t], Array.getElem?_eq_getElem hlt⟩
    have hstate : ((s.threads (.examining (t :: rest) waited)).shared t).state = task.state := by
      rw [threads_shared _ ht htask]
      rfl
    rw [TaskSystem.waitForAll, htask, Option.map_some] at hs'
    by_cases hjoined : task.state = .joined
    · rw [if_pos (congrArg some hjoined)] at hs'
      refine ih (h.main_step nofun rfl ?_) hs'
      simp [Threads.proceed, hstate, hjoined, threads_move_main]
    · rw [if_neg fun hsome => hjoined (Option.some.inj hsome)] at hs'
      have hawait : s.Follows (.awaiting t .lock rest waited) := by
        refine h.main_step nofun rfl ?_
        simp [Threads.proceed, hstate, hjoined, threads_move_main]
      split at hs'
      · rename_i hwait
        exact ih (hawait.waitFor ht hwait) hs'
      · cases hs'

theorem drain {rounds waited total : Nat} (h : s.Follows (.collecting waited))
    (hs' : s.drain rounds waited = (.ok total, s')) : s'.Follows (.departing total) := by
  induction rounds generalizing s waited with
  | zero => cases hs'
  | succ rounds ih =>
    cases hlist : s.unjoined with
    | nil =>
      rw [TaskSystem.drain, hlist] at hs'
      cases hs'
      have hempty : (s'.threads (.collecting total)).unjoined = [] := hlist
      exact h.main_step nofun rfl (by simp [Threads.proceed, hempty, threads_move_main])
    | cons n rest =>
      rw [TaskSystem.drain, hlist] at hs'
      have hpending : (s.threads (.collecting waited)).unjoined = n :: rest := hlist
      have hexamine : { s with unjoined := [] }.Follows (.examining (n :: rest) waited) := by
        refine h.main_step nofun rfl ?_
        simp only [Threads.proceed, threads_stage_main, hpending]
        exact congrArg some (threads_move_main { s with unjoined := [] } (.collecting waited) _)
      dsimp only at hs'
      split at hs'
      · rename_i hwait
        have hdone := hexamine.waitForAll hwait
        exact ih (hdone.main_step nofun rfl (by simp [Threads.proceed, threads_move_main])) hs'
      · cases hs'

end Follows

/-- When a system has waited for its tasks, none of them is left to be joined and all are over. -/
theorem drain_over {s s' : TaskSystem} {rounds total : Nat} (h : s.Follows .working)
    (hs' : s.drain rounds 0 = (.ok total, s')) :
    s'.unjoined = [] ∧ ∀ t, 0 < t → t < s'.tasks.size → s'.activity? t = some .over := by
  have hcollect : s.Follows (.collecting 0) := by
    refine h.extend h.driven (?_ : (s.threads .working).run [(0, .shutdown)] = _)
    rw [← threads_move_main s .working (.collecting 0)]
    rfl
  obtain ⟨hlist, hall⟩ : s'.unjoined = [] ∧
      ∀ t, 0 < t → t < s'.tasks.size → (s'.threads (.departing total)).stage t = .exited := by
    obtain ⟨-, hlist, hall⟩ := (hcollect.drain hs').sound.relies 0
    exact ⟨hlist, hall⟩
  refine ⟨hlist, fun t hpos hlt => ?_⟩
  have htask : s'.tasks[t]? = some s'.tasks[t] := Array.getElem?_eq_getElem hlt
  have hexited := hall t hpos hlt
  rw [threads_stage _ (Nat.ne_of_gt hpos) htask] at hexited
  refine activity?_eq_some.mpr ⟨_, htask, ?_⟩
  cases hactivity : s'.tasks[t].activity <;> rw [hactivity] at hexited <;> trivial

/-- No join finds that a task is over but its ending missing. -/
theorem serve_ending {s : TaskSystem} {main : Stage} (h : s.Follows main) (a n : Nat)
    (request : Request) : s.serve a request ≠ .fatal (.noOutcome n) := by
  intro hfatal
  cases request with
  | spawn body => cases hfatal
  | send target message =>
    simp only [serve] at hfatal
    split at hfatal <;> cases hfatal
  | receive =>
    simp only [serve] at hfatal
    split at hfatal
    · cases hfatal
    · split at hfatal <;> cases hfatal
  | join target =>
    simp only [serve] at hfatal
    split at hfatal
    · split at hfatal
      · cases hfatal
      · rename_i task htask
        split at hfatal
        · cases hfatal
        · rename_i hover
          have hsome := h.ending_isSome htask hover
          split at hfatal
          · rename_i hnone
            rw [hnone] at hsome
            cases hsome
          · cases hfatal
        · cases hfatal
    · cases hfatal

end TaskSystem
end ObjectMachine
