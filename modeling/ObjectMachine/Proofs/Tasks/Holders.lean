import Mathlib.Logic.Relation
import ObjectMachine.Proofs.Tasks.Schedules
import ObjectMachine.TaskSystem.Holders

/-!
# ObjectMachine.Proofs.Tasks.Holders

Who holds a task that was joined.

When a task ends its mailbox is closed and stays empty, so no message to a task keeps it. Its ending
is kept for later joins; an ending that names the task itself holds it, and nothing else that
belongs to the task does.

* `Scene`, `Scene.Step` — a system and what may happen next, in any order of the tasks.
* `Scene.reaches_perform` — what the embedding program lets the main task do is a run of such steps.
* `TaskSystem.Tidy` — a task that is over has an ending, and a closed and empty mailbox.
* `Scene.tidy` — in every run.
* `TaskSystem.heldBeside` — what holds tasks apart from a given one.
* `TaskSystem.joined_task_held` — how often a joined task is held.
-/

namespace ObjectMachine

/-! ## Runs -/

/-- A system that waits for the embedding program, or one whose main task is at work. -/
inductive Scene where
  | rest (s : TaskSystem)
  | work (s : TaskSystem) (o : Outcome)

namespace Scene

/-- What may happen next. The other tasks may run at any time, and as far as they like. -/
inductive Step : Scene → Scene → Prop where
  | act {s : TaskSystem} {α : Type} (a : Action α) : Step (.rest s) (.rest (s.act a).2)
  | begin {s : TaskSystem} (konts : List Kont) (mode : Mode) :
      Step (.rest s) (.work { s with main := default } (.next ⟨s.main, konts, mode⟩))
  | step {s : TaskSystem} {m : Machine} : Step (.work s (.next m)) (.work s m.step)
  | absorb {s : TaskSystem} {m : Machine} {r : Request} : Step (.work s (.blocked m r))
      (.work (s.absorb m.vm).2 (.blocked { m with vm := (s.absorb m.vm).1 } r))
  | answer {s s' : TaskSystem} {m : Machine} {r : Request} {a : Machine.Answer} :
      s.serve 0 r = .answer a s' → Step (.work s (.blocked m r)) (.work s' (m.resume a))
  | leave {s : TaskSystem} {o : Outcome} : Step (.work s o) (.rest (s.restore o.vm))
  | advance {s s' : TaskSystem} {fuel t : Nat} : s.advance fuel t = .moved s' →
      Step (.rest s) (.rest s')
  | advanceBeside {s s' : TaskSystem} {o : Outcome} {fuel t : Nat} :
      s.advance fuel t = .moved s' → Step (.work s o) (.work s' o)
  | shutdown {s : TaskSystem} : Step (.rest s) (.rest s.shutdown.2)

def Reaches : Scene → Scene → Prop := Relation.ReflTransGen Step

theorem reaches_run (s : TaskSystem) (m : Machine) (fuel : Nat) :
    Reaches (.work s (.next m)) (.work s (m.run fuel)) := by
  induction fuel generalizing m with
  | zero => exact .refl
  | succ fuel ih =>
    rw [Machine.run]
    split
    · rename_i m' hstep
      have hfirst : Step (.work s (.next m)) (.work s (.next m')) := hstep ▸ .step
      exact (ih m').head hfirst
    · exact .single .step

theorem reaches_advanceFirst {s s' : TaskSystem} {fuel : Nat} {order : List Nat} {o : Outcome}
    (hs' : s.advanceFirst fuel order = .moved s') : Reaches (.work s o) (.work s' o) := by
  induction order with
  | nil => cases hs'
  | cons t rest ih =>
    rw [TaskSystem.advanceFirst] at hs'
    split at hs'
    · exact ih hs'
    · exact .single (.advanceBeside hs')

/-- The order in which a system drives its tasks is one of those that are possible. -/
theorem reaches_drive {s s' : TaskSystem} {fuel rounds : Nat} {o : Outcome}
    {v : TaskSystem.Verdict} (hs' : s.drive fuel rounds o = (v, s')) (hv : ∀ f, v ≠ .fatal f) :
    Reaches (.work s o) (.rest s') := by
  induction rounds generalizing s o with
  | zero =>
    cases o with
    | done vm result => cases result <;> cases hs' <;> exact .single .leave
    | next m | blocked m request | fatal vm f | crashed vm =>
      cases hs'
      exact .single .leave
  | succ rounds ih =>
    cases o with
    | done vm result => cases result <;> cases hs' <;> exact .single .leave
    | fatal vm f | crashed vm =>
      cases hs'
      exact .single .leave
    | next m =>
      have hrun := reaches_run s m fuel
      rw [TaskSystem.drive] at hs'
      split at hs'
      · rename_i hnext
        cases hs'
        rw [hnext] at hrun
        exact hrun.tail .leave
      · exact hrun.trans (ih hs')
    | blocked m request =>
      rw [TaskSystem.drive] at hs'
      dsimp only at hs'
      have habsorb : Step (.work s (.blocked m request)) _ := .absorb
      split at hs'
      · rename_i hserve
        exact .head habsorb (.head (.answer hserve) (ih hs'))
      · cases hs'
        exact absurd rfl (hv _)
      · split at hs'
        · cases hs'
          exact .head habsorb (.single .leave)
        · rename_i hadvance
          exact .head habsorb ((reaches_advanceFirst hadvance).trans (ih hs'))
        · cases hs'
          exact absurd rfl (hv _)

theorem reaches_perform {s s' : TaskSystem} {konts : List Kont} {mode : Mode}
    {v : TaskSystem.Verdict} (hs' : s.perform konts mode = (v, s')) (hv : ∀ f, v ≠ .fatal f) :
    Reaches (.rest s) (.rest s') :=
  .head (.begin konts mode) (reaches_drive hs' hv)

end Scene

/-! ## Tasks that are over -/

/-- A task that is over is marked so, has an ending, and its mailbox is closed and empty. -/
structure Task.Tidy (task : Task) : Prop where
  halted : task.state = .finished ∨ task.state = .joined → task.activity = .over
  ended : task.activity = .over → task.ending.isSome
  empty : task.activity = .over → task.mailbox.queue = []
  closed : task.activity = .over → task.mailbox.closed = true

theorem Task.Tidy.of_activity {task : Task} (h : task.Tidy) (hne : task.activity ≠ .over)
    {x : Activity} (hx : x ≠ .over) : { task with activity := x }.Tidy where
  halted hstate := absurd (h.halted hstate) hne
  ended hover := absurd hover hx
  empty hover := absurd hover hx
  closed hover := absurd hover hx

namespace TaskSystem

def Tidy (s : TaskSystem) : Prop :=
  ∀ (t : Nat) (task : Task), s.tasks[t]? = some task → task.Tidy

/-- Wherever a task got, its system has a property. -/
def Progress.Leaves (P : TaskSystem → Prop) : Progress → Prop
  | .idle => True
  | .moved s | .fatal _ s => P s

namespace Tidy

variable {s s' : TaskSystem} {t : Nat}

theorem of_tasks (h : s.Tidy) (heq : s'.tasks = s.tasks) : s'.Tidy := by
  intro t task ht
  rw [heq] at ht
  exact h t task ht

theorem note (h : s.Tidy) (text : String) : (s.note text).Tidy :=
  h.of_tasks (tasks_note s text)

theorem absorb (h : s.Tidy) (vm : Vm) : (s.absorb vm).2.Tidy :=
  h.of_tasks (tasks_absorb s vm)

theorem restore (h : s.Tidy) (vm : Vm) : (s.restore vm).Tidy :=
  h.absorb vm

theorem modifyTask (h : s.Tidy) {f : Task → Task}
    (hf : ∀ task, s.tasks[t]? = some task → task.Tidy → (f task).Tidy) :
    (s.modifyTask t f).Tidy := by
  intro p task hp
  simp only [TaskSystem.modifyTask, Array.getElem?_modify] at hp
  split at hp
  · next heq =>
    subst heq
    obtain ⟨old, hold, rfl⟩ := Option.map_eq_some_iff.mp hp
    exact hf old hold (h _ old hold)
  · exact h p task hp

theorem boot (registry : Registry) (config : Config) (base : Nat) :
    (TaskSystem.boot registry config base).Tidy := by
  refine note ?_ _
  intro t task ht
  simp only [Array.getElem?_singleton] at ht
  split at ht <;> cases ht
  exact ⟨by simp, nofun, nofun, nofun⟩

theorem spawnTask (h : s.Tidy) (body : Packed) : (s.spawnTask body).2.Tidy := by
  refine note ?_ _
  intro t task ht
  simp only [Array.getElem?_push] at ht
  split at ht
  · cases ht
    exact ⟨by simp, nofun, nofun, nofun⟩
  · exact h t task ht

/-- A message to a task that is over is dropped; one that a task takes was there. -/
theorem serves {a : Nat} (h : s.Tidy) (hs' : s.Serves a s') : s'.Tidy := by
  cases hs' with
  | spawn body => exact h.spawnTask body
  | lost => exact h
  | send t message =>
    refine h.modifyTask fun task _ htidy => ⟨htidy.halted, htidy.ended, ?_, ?_⟩
    · intro hover
      simp [Mailbox.post, Mailbox.enqueue, Mailbox.drain, htidy.closed hover]
    · intro hover
      simp [Mailbox.post, Mailbox.enqueue, Mailbox.drain, htidy.closed hover]
  | @receive task p mailbox htask htake =>
    refine h.modifyTask fun old hold htidy => ⟨htidy.halted, htidy.ended, ?_, ?_⟩
    · intro hover
      rw [htask] at hold
      cases hold
      simp [Mailbox.take?, htidy.empty hover] at htake
    · intro hover
      rw [htask] at hold
      cases hold
      simp [Mailbox.take?, htidy.empty hover] at htake
  | @join t task e htask hover _ =>
    have hjoined : (s.markJoined t).Tidy := by
      refine h.modifyTask fun old hold htidy => ?_
      rw [htask] at hold
      cases hold
      exact ⟨fun _ => hover, htidy.ended, htidy.empty, htidy.closed⟩
    exact hjoined.of_tasks rfl

/-! A task that is not over runs on. -/

theorem leave (h : s.Tidy) (hne : s.activity? t ≠ some .over) {x : Activity} (hx : x ≠ .over) :
    (s.modifyTask t fun task => { task with activity := x }).Tidy := by
  refine h.modifyTask fun task htask htidy => htidy.of_activity ?_ hx
  intro hover
  exact hne (activity?_eq_some.mpr ⟨task, htask, hover⟩)

theorem finishTask (h : s.Tidy) (vm : Vm) (e : Ending) : (s.finishTask t vm e).Tidy := by
  have hends : ∀ {s : TaskSystem}, s.Tidy → (s.modifyTask t fun task =>
      { state := .finished, activity := .over, mailbox := task.mailbox.close.2,
        ending := some e }).Tidy :=
    fun hs => hs.modifyTask fun _ _ _ => ⟨fun _ => rfl, fun _ => rfl, fun _ => rfl, fun _ => rfl⟩
  simp only [TaskSystem.finishTask]
  split
  · exact hends (((h.absorb vm).note _).note _)
  · exact hends ((h.absorb vm).note _)

theorem conclude (h : s.Tidy) (hne : s.activity? t ≠ some .over) (vm : Vm)
    (result : Except Error Ref) : (s.conclude t vm result).Leaves Tidy := by
  unfold TaskSystem.conclude
  split
  · exact h.finishTask _ _
  · exact h.absorb _
  · refine (h.absorb _).leave ?_ nofun
    rwa [activity?_absorb]

theorem settle (h : s.Tidy) (hne : s.activity? t ≠ some .over) (o : Outcome) :
    (s.settle t o).Leaves Tidy := by
  have hleave : ∀ (vm : Vm) {x : Activity}, x ≠ .over →
      ((s.absorb vm).2.modifyTask t fun task => { task with activity := x }).Tidy := by
    intro vm x hx
    refine (h.absorb vm).leave ?_ hx
    rwa [activity?_absorb]
  cases o with
  | done vm result => exact h.conclude hne vm result
  | next m => exact hleave m.vm nofun
  | blocked m request => exact hleave m.vm nofun
  | fatal vm f => exact h.absorb vm
  | crashed vm => exact hleave vm nofun

theorem runFrom (h : s.Tidy) (hne : s.activity? t ≠ some .over) (fuel : Nat) (o : Outcome) :
    (s.runFrom fuel t o).Leaves Tidy := by
  cases o with
  | next m => exact h.settle hne _
  | done vm result => exact h.settle hne (.done vm result)
  | blocked m request => exact h.settle hne (.blocked m request)
  | fatal vm f => exact h.settle hne (.fatal vm f)
  | crashed vm => exact h.settle hne (.crashed vm)

theorem begin {body : Packed} (h : s.Tidy) (hready : s.activity? t = some (.ready body))
    (fuel : Nat) : (s.begin fuel t body).Leaves Tidy := by
  let s' : TaskSystem := { s with nextHeap := s.nextHeap + 1 }.modifyTask t fun task =>
    { task with state := .running }
  have hs' : s'.Tidy := by
    refine modifyTask (h.of_tasks rfl) fun task htask _ => ?_
    obtain ⟨old, hold, hactivity⟩ := activity?_eq_some.mp hready
    have hsame : task = old := Option.some.inj (htask.symm.trans hold)
    subst hsame
    exact ⟨by simp, by simp [hactivity], by simp [hactivity], by simp [hactivity]⟩
  have hne : s'.activity? t ≠ some .over := by
    have hsame : s'.activity? t = s.activity? t := activity?_modifyTask_same fun _ => rfl
    rw [hsame, hready]
    nofun
  simp only [TaskSystem.begin]
  split
  · exact hs'.runFrom hne fuel _
  · exact hs'.conclude hne _ _
  · exact hs'.settle hne _
  · exact hs'.settle hne _

theorem advance (h : s.Tidy) (fuel t : Nat) : (s.advance fuel t).Leaves Tidy := by
  unfold TaskSystem.advance
  split
  · trivial
  · rename_i task htask
    split
    · rename_i body hbody
      exact h.begin (activity?_eq_some.mpr ⟨task, htask, hbody⟩) fuel
    · rename_i m hm
      have hpaused : s.activity? t = some (.paused m) := activity?_eq_some.mpr ⟨task, htask, hm⟩
      split
      · split
        · trivial
        · exact h
        · rename_i hserve
          have hserves := serve_serves hserve
          refine (h.serves hserves).runFrom ?_ fuel _
          rw [hserves.activity? hpaused]
          nofun
      · refine h.runFrom ?_ fuel _
        rw [hpaused]
        nofun
    · trivial
    · trivial
    · trivial

theorem advanceFirst (h : s.Tidy) (fuel : Nat) (order : List Nat) :
    (s.advanceFirst fuel order).Leaves Tidy := by
  induction order with
  | nil => trivial
  | cons t rest ih =>
    rw [TaskSystem.advanceFirst]
    split
    · exact ih
    · exact h.advance fuel t

/-! Waiting for all tasks. -/

theorem waitFor (h : s.Tidy) (fuel t rounds : Nat) : (s.waitFor fuel t rounds).2.Tidy := by
  induction rounds generalizing s with
  | zero => exact h
  | succ rounds ih =>
    rw [TaskSystem.waitFor]
    split
    · exact h
    · rename_i task htask
      split
      · rename_i hover
        refine h.modifyTask fun old hold htidy => ?_
        rw [htask] at hold
        cases hold
        exact ⟨fun _ => hover, htidy.ended, htidy.empty, htidy.closed⟩
      · exact h
      · have hadvance := h.advanceFirst fuel (List.range s.tasks.size)
        rw [← TaskSystem.advanceAny] at hadvance
        split
        · exact h
        · rename_i hmoved
          rw [hmoved] at hadvance
          exact ih hadvance
        · rename_i hfatal
          rw [hfatal] at hadvance
          exact hadvance

theorem waitForAll (h : s.Tidy) (pending : List Nat) (waited : Nat) :
    (s.waitForAll pending waited).2.Tidy := by
  induction pending generalizing s waited with
  | nil => exact h
  | cons t rest ih =>
    rw [TaskSystem.waitForAll]
    have hwait := h.waitFor fuel t rounds
    split
    · exact ih h waited
    · split
      · rename_i heq
        rw [heq] at hwait
        exact ih hwait _
      · rename_i heq
        rw [heq] at hwait
        exact hwait

theorem drain (h : s.Tidy) (rounds waited : Nat) : (s.drain rounds waited).2.Tidy := by
  induction rounds generalizing s waited with
  | zero => exact h
  | succ rounds ih =>
    rw [TaskSystem.drain]
    split
    · exact h
    · have hwait := waitForAll (s := { s with unjoined := [] }) (h.of_tasks rfl) s.unjoined waited
      split
      · rename_i heq
        rw [heq] at hwait
        exact ih hwait _
      · rename_i heq
        rw [heq] at hwait
        exact hwait

theorem shutdown (h : s.Tidy) : s.shutdown.2.Tidy := by
  have hdrain := h.drain rounds 0
  unfold TaskSystem.shutdown
  split
  · rename_i heq
    rw [heq] at hdrain
    exact hdrain.note _
  · rename_i heq
    rw [heq] at hdrain
    exact hdrain
  · rename_i heq
    rw [heq] at hdrain
    exact hdrain

end Tidy
end TaskSystem

namespace Scene

def system : Scene → TaskSystem
  | .rest s | .work s _ => s

theorem Step.tidy {x y : Scene} (hstep : Step x y) (h : x.system.Tidy) : y.system.Tidy := by
  cases hstep with
  | @act s α a =>
    have hrest : { s with main := default }.Tidy := h.of_tasks rfl
    show (s.act a).2.Tidy
    simp only [TaskSystem.act]
    split
    · exact hrest.restore _
    · exact hrest.restore _
  | begin konts mode => exact h.of_tasks rfl
  | step => exact h
  | @absorb s m r => exact h.absorb m.vm
  | answer hserve => exact h.serves (TaskSystem.serve_serves hserve)
  | leave => exact h.restore _
  | @advance s s' fuel t hs' | @advanceBeside s s' o fuel t hs' =>
    have hadvance := h.advance fuel t
    simp only [system] at hadvance
    rw [hs'] at hadvance
    exact hadvance
  | shutdown => exact h.shutdown

/-- In every run, a task that is over is tidy. -/
theorem tidy {registry : Registry} {config : Config} {base : Nat} {x : Scene}
    (hrun : Reaches (.rest (.boot registry config base)) x) : x.system.Tidy := by
  induction hrun with
  | refl => exact .boot registry config base
  | tail _ hstep ih => exact hstep.tidy ih

end Scene

/-! ## Holds -/

/-- The tasks named by what belongs to a task: by the objects of its heap, by the function it has
still to begin with or the request it waits for, by its messages, and by its ending. -/
def Task.names (u : Task) : List TaskId :=
  (match u.activity with
    | .ready body => body.tasks
    | .paused m =>
      m.vm.heap.taskRefs ++
        match m.mode with
        | .waiting r => r.tasks
        | _ => []
    | _ => [])
    ++ u.mailbox.queue.flatMap Packed.tasks ++ (u.ending.map fun e => e.packed.tasks).getD []

namespace TaskSystem

variable {s : TaskSystem} {t : Nat} {task : Task}

/-- The tasks that are still there. -/
def alive (s : TaskSystem) : List Nat :=
  s.settleAlive s.tasks.size (List.range s.tasks.size)

/-- The holds of other tasks than `t`: by the main task itself, by the objects of its heap, and by
what belongs to the tasks other than `t` that are still there. -/
def heldBeside (s : TaskSystem) (t : Nat) : List TaskId :=
  s.main.task :: (s.main.heap.taskRefs ++
    (s.alive.filter (· ≠ t)).flatMap fun u => (s.tasks[u]?.map Task.names).getD [])

/-- A task that names itself is never left out. -/
theorem mem_settleAlive (htask : s.tasks[t]? = some task)
    (hself : ⟨s.number, t⟩ ∈ heldByTask ⟨s.number, t⟩ task) {rounds : Nat} {alive : List Nat}
    (ht : t ∈ alive) : t ∈ s.settleAlive rounds alive := by
  induction rounds generalizing alive with
  | zero => exact ht
  | succ rounds ih =>
    rw [settleAlive]
    split
    · exact ht
    · apply ih
      have hheld : ⟨s.number, t⟩ ∈ s.holds alive := by
        refine List.mem_append_right _ (List.mem_flatMap.mpr ⟨t, ht, ?_⟩)
        rw [htask]
        exact hself
      simpa [ht] using hheld

theorem settleAlive_sublist (rounds : Nat) (alive : List Nat) :
    (s.settleAlive rounds alive).Sublist alive := by
  induction rounds generalizing alive with
  | zero => exact .refl _
  | succ rounds ih =>
    rw [settleAlive]
    split
    · exact .refl _
    · exact (ih _).trans List.filter_sublist

/-- The holds by what belongs to one member of a list of tasks, apart from those of the others. -/
theorem count_flatMap_apart {f : Nat → List TaskId} {us : List Nat} (hnodup : us.Nodup) (t : Nat)
    (x : TaskId) :
    (us.flatMap f).count x =
      ((us.filter (· ≠ t)).flatMap f).count x + if t ∈ us then (f t).count x else 0 := by
  induction us with
  | nil => simp
  | cons u us ih =>
    obtain ⟨hu, hus⟩ := List.nodup_cons.mp hnodup
    rw [List.flatMap_cons, List.count_append, ih hus]
    by_cases hut : u = t
    · subst hut
      simp [hu]
      omega
    · simp [hut, Ne.symm hut]
      omega

/-- Another task is held by what belongs to a task as often as this names it. -/
theorem count_heldByTask {self x : TaskId} (hne : self ≠ x) (task : Task) :
    (heldByTask self task).count x = task.names.count x := by
  cases hactivity : task.activity with
  | ready body => simp [heldByTask, heldByActivity, Task.names, hactivity, hne]
  | paused m => cases hmode : m.mode <;>
      simp [heldByTask, heldByActivity, Task.names, hactivity, hmode, hne]
  | _ => simp [heldByTask, heldByActivity, Task.names, hactivity]

theorem holds_eq (s : TaskSystem) (us : List Nat) :
    s.holds us = s.heldOutside ++
      us.flatMap fun u => (s.tasks[u]?.map (heldByTask ⟨s.number, u⟩)).getD [] := by
  unfold holds
  congr
  funext u
  cases s.tasks[u]? <;> rfl

/-- The holds of a task by what belongs to others. -/
theorem count_heldByOthers (s : TaskSystem) (t : Nat) (us : List Nat) :
    ((us.filter (· ≠ t)).flatMap fun u =>
      (s.tasks[u]?.map (heldByTask ⟨s.number, u⟩)).getD []).count ⟨s.number, t⟩ =
    ((us.filter (· ≠ t)).flatMap fun u =>
      (s.tasks[u]?.map Task.names).getD []).count ⟨s.number, t⟩ := by
  rw [List.count_flatMap, List.count_flatMap]
  congr 1
  apply List.map_congr_left
  intro u hu
  have hut : u ≠ t := by simpa using (List.mem_filter.mp hu).2
  have hne : (⟨s.number, u⟩ : TaskId) ≠ ⟨s.number, t⟩ := by simp [hut]
  cases htask : s.tasks[u]? with
  | none => simp [htask]
  | some task => simp [htask, count_heldByTask hne]

/-- How often a task is held that was joined and is not on the list of those that were not: as often
as anything apart from it names it, and as often as its own ending does. Its mailbox is closed and
holds nothing. -/
theorem joined_task_held {registry : Registry} {config : Config} {base : Nat}
    (hrun : Scene.Reaches (.rest (boot registry config base)) (.rest s))
    (htask : s.tasks[t]? = some task) (hjoined : task.state = .joined) (hlist : t ∉ s.unjoined) :
    task.mailbox.queue = [] ∧ task.mailbox.closed = true ∧ ∃ e, task.ending = some e ∧
      s.refCount ⟨s.number, t⟩ =
        (s.heldBeside t).count ⟨s.number, t⟩ + e.packed.tasks.count ⟨s.number, t⟩ := by
  have htidy : task.Tidy := Scene.tidy hrun t task htask
  have hover := htidy.halted (.inr hjoined)
  obtain ⟨e, he⟩ := Option.isSome_iff_exists.mp (htidy.ended hover)
  refine ⟨htidy.empty hover, htidy.closed hover, e, he, ?_⟩
  have hown : heldByTask ⟨s.number, t⟩ task = e.packed.tasks := by
    simp [heldByTask, heldByActivity, hover, htidy.empty hover, he]
  have hnodup : s.alive.Nodup := (settleAlive_sublist ..).nodup List.nodup_range
  have hoccurs : (if t ∈ s.alive then e.packed.tasks.count ⟨s.number, t⟩ else 0) =
      e.packed.tasks.count ⟨s.number, t⟩ := by
    split
    · rfl
    · next hgone =>
      symm
      apply List.count_eq_zero.mpr
      intro hself
      refine hgone (mem_settleAlive htask (hown ▸ hself) (List.mem_range.mpr ?_))
      exact (Array.getElem?_eq_some_iff.mp htask).1
  have hlisted : (s.unjoined.map (⟨s.number, ·⟩ : Nat → TaskId)).count ⟨s.number, t⟩ = 0 := by
    apply List.count_eq_zero.mpr
    simpa using hlist
  rw [refCount, holders, holds_eq, ← alive, List.count_append, count_flatMap_apart hnodup t,
    count_heldByOthers, htask, Option.map_some, Option.getD_some, hown, hoccurs, heldOutside,
    heldBeside, List.count_cons, List.count_cons, List.count_append, List.count_append, hlisted]
  omega

/-! A task whose function answers the task itself, once it was joined. -/

/-- The system after the main task has made a request, if that is answered at once. -/
def asked? (s : TaskSystem) (r : Request) : Option TaskSystem :=
  match { s with main := default }.serve 0 r with
  | .answer a s' => some (s'.restore (Machine.resume ⟨s.main, [], .waiting r⟩ a).vm)
  | _ => none

/-- The system after a task has run. -/
def advanced? (s : TaskSystem) (fuel t : Nat) : Option TaskSystem :=
  match s.advance fuel t with
  | .moved s' => some s'
  | _ => none

def selfJoined? : Option TaskSystem :=
  ((boot {} {} 0).asked? (.spawn (.method "current_task" (.native .currentTask) none))).bind
    fun s => (s.advanced? 10 1).bind fun s => s.asked? (.join ⟨0, 1⟩)

theorem reaches_asked {s s' : TaskSystem} {r : Request} (h : s.asked? r = some s') :
    Scene.Reaches (.rest s) (.rest s') := by
  unfold asked? at h
  split at h
  · next hserve =>
    cases h
    exact .head (.begin [] (.waiting r)) (.head .step (.head (.answer hserve) (.single .leave)))
  · cases h

theorem reaches_advanced {s s' : TaskSystem} {fuel t : Nat} (h : s.advanced? fuel t = some s') :
    Scene.Reaches (.rest s) (.rest s') := by
  unfold advanced? at h
  split at h
  · next hadvance =>
    cases h
    exact .single (.advance hadvance)
  · cases h

theorem reaches_selfJoined {s : TaskSystem} (h : selfJoined? = some s) :
    Scene.Reaches (.rest (boot {} {} 0)) (.rest s) := by
  rw [selfJoined?, Option.bind_eq_some_iff] at h
  obtain ⟨s₁, hspawned, h⟩ := h
  rw [Option.bind_eq_some_iff] at h
  obtain ⟨s₂, hadvanced, hjoined⟩ := h
  exact (reaches_asked hspawned).trans ((reaches_advanced hadvanced).trans (reaches_asked hjoined))

/-- Two task objects of the main heap name the task, and so does its ending. -/
def heldBySelf (s : TaskSystem) : Bool :=
  s.number == 0 && !s.unjoined.contains 1 && (s.heldBeside 1).count ⟨0, 1⟩ == 2 &&
    s.tasks[1]?.any fun task => task.state == .joined &&
      task.ending.any fun e => e.packed.tasks.count ⟨0, 1⟩ == 1

theorem selfJoined_held : selfJoined?.any heldBySelf = true := by
  decide +kernel

/-- The task is held three times although only two task objects are left that name it. -/
theorem joined_task_held_self :
    ∃ (s : TaskSystem) (task : Task), Scene.Reaches (.rest (boot {} {} 0)) (.rest s) ∧
      s.tasks[1]? = some task ∧ task.state = .joined ∧ 1 ∉ s.unjoined ∧
      (s.heldBeside 1).count ⟨s.number, 1⟩ = 2 ∧ s.refCount ⟨s.number, 1⟩ = 3 := by
  obtain ⟨s, hs, hheld⟩ := (Option.any_eq_true _ _).mp selfJoined_held
  simp only [heldBySelf, Bool.and_eq_true, beq_iff_eq, Option.any_eq_true, Bool.not_eq_eq_eq_not,
    Bool.not_true, List.contains_eq_mem, decide_eq_false_iff_not] at hheld
  obtain ⟨⟨⟨hnumber, hlist⟩, hbeside⟩, task, htask, hjoined, e, he, hown⟩ := hheld
  rw [← hnumber] at hbeside hown
  obtain ⟨-, -, e', he', hcount⟩ :=
    joined_task_held (reaches_selfJoined hs) htask hjoined hlist
  rw [he] at he'
  cases he'
  exact ⟨s, task, reaches_selfJoined hs, htask, hjoined, hlist, hbeside, by omega⟩

end TaskSystem
end ObjectMachine
