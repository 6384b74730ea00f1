import ObjectMachine.Proofs.Tasks.Lives

/-!
# ObjectMachine.Proofs.Tasks.Joining

What those who wait for tasks can be sure of, whatever the order in which the threads run.

* `Threads.joiners_agree` — a task goes through its states one after the other, and all who join it
  read the one ending that its program came to.
* `Threads.shutdown_complete` — when the main thread has waited for all others, none goes on.
-/

namespace ObjectMachine

/-- The states of a task in their order. -/
inductive TaskState.Next : TaskState → TaskState → Prop where
  | start : Next .created .running
  | finish : Next .running .finished
  | join : Next .finished .joined

/-- The ending that a thread has not yet shown to others. -/
def Stage.kept : Stage → Option Ending
  | .closing e | .keeping e => some e
  | _ => none

namespace Threads

/-- The ending that the program of a task came to. -/
def result (s : Threads) (n : Nat) : Option Ending :=
  (s.stage n).kept.or (s.shared n).ending

section

variable {s s' : Threads} {t n : Nat}

theorem Effect.forward (he : Effect t s s') (n : Nat) :
    (s'.shared n).state = (s.shared n).state ∨ (s.shared n).state.Next (s'.shared n).state := by
  by_cases hn : n = t
  · subst hn
    rcases he.own with h | ⟨h, h'⟩ | ⟨h, h'⟩
    · exact .inl h
    · rw [h, h']
      exact .inr .start
    · rw [h, h']
      exact .inr .finish
  · rcases (he.others n hn).2 with h | ⟨-, -, h, h'⟩
    · exact .inl h
    · rw [h, h']
      exact .inr .join

/-- The result of a task is its own affair. -/
theorem Effect.result (he : Effect t s s') (hn : n ≠ t) : s'.result n = s.result n := by
  rcases he.stage n hn with h | ⟨h, -, h'⟩
  · simp [Threads.result, h, (he.others n hn).1]
  · simp [Threads.result, h, h', (he.others n hn).1, Stage.kept]

theorem result_move (s : Threads) (t : Nat) (g : Stage) :
    (s.move t g).result t = g.kept.or (s.shared t).ending := by
  simp [result]

theorem ending_change {f : Shared → Shared} (hf : ∀ x, (f x).ending = x.ending) (m : Nat) :
    ((s.change n f).shared m).ending = (s.shared m).ending := by
  by_cases hm : m = n
  · subst hm
    rw [shared_change_self, hf]
  · rw [shared_change_ne hm]

theorem result_wait (again : Waiting → Stage) {done : Option Ending → Stage} {phase : Waiting}
    (hagain : ∀ phase, (again phase).kept = none) (hdone : ∀ seen, (done seen).kept = none)
    (ht : s.stage t = again phase) (hs' : s.wait t n again done phase = some s') :
    s'.result t = s.result t := by
  have hold : s.result t = (s.shared t).ending := by simp [result, ht, hagain]
  have hchange : ∀ {f : Shared → Shared} (next : Waiting), (∀ x, (f x).ending = x.ending) →
      ((s.change n f).move t (again next)).result t = s.result t := by
    intro f next hf
    rw [result_move, hagain, ending_change hf, hold, Option.none_or]
  have hmove : ∀ g : Stage, g.kept = none → (s.move t g).result t = s.result t := by
    intro g hg
    rw [result_move, hg, hold, Option.none_or]
  cases phase with
  | lock =>
    obtain ⟨-, ⟨⟩⟩ := Option.ite_none_right_eq_some.mp hs'
    exact hchange _ fun _ => rfl
  | take =>
    rw [wait] at hs'
    split at hs'
    · cases hs'
      exact hchange _ fun _ => rfl
    · cases hs'
      exact hmove _ (hagain _)
  | exit =>
    rw [wait] at hs'
    split at hs'
    · cases hs'
      exact hmove _ (hagain _)
    · cases hs'
      rfl
    · cases hs'
  | mark =>
    cases hs'
    exact hchange _ fun _ => rfl
  | unlock =>
    cases hs'
    exact hchange _ fun _ => rfl
  | read =>
    cases hs'
    exact hmove _ (hdone _)

theorem result_spawn {phase : Spawning} (ht : s.stage t = .spawning n phase) :
    (s.spawn t n phase).result t = s.result t := by
  have hold : s.result t = (s.shared t).ending := by simp [result, ht, Stage.kept]
  cases phase with
  | start => simp [spawn, result_move, hold, Stage.kept]
  | store | unlock => simp [spawn, result_move, hold, Stage.kept, ending_change]
  | track => simp [spawn, result_move, hold, Stage.kept]

/-- A thread that has no choice comes to no other result. -/
theorem result_proceed (hs' : s.proceed t = some s') : s'.result t = s.result t := by
  have hmove : ∀ g : Stage, g.kept = (s.stage t).kept → (s.move t g).result t = s.result t := by
    intro g hg
    rw [result_move, hg, result]
  unfold proceed at hs'
  cases ht : s.stage t with
  | unborn | working | exited | dead =>
    rw [ht] at hs'
    cases hs'
  | spawning n phase =>
    rw [ht] at hs'
    cases hs'
    exact result_spawn ht
  | joining n phase =>
    rw [ht] at hs'
    exact result_wait (.joining n) (fun _ => rfl) (fun _ => rfl) ht hs'
  | untracking n seen =>
    rw [ht] at hs'
    cases seen with
    | none =>
      cases hs'
      rfl
    | some e =>
      cases hs'
      exact hmove .working (by rw [ht]; rfl)
  | collecting waited =>
    rw [ht] at hs'
    cases hlist : s.unjoined with
    | nil =>
      rw [hlist] at hs'
      cases hs'
      exact hmove _ (by rw [ht]; rfl)
    | cons m rest =>
      rw [hlist] at hs'
      cases hs'
      exact hmove (.examining (m :: rest) waited) (by rw [ht]; rfl)
  | examining pending waited =>
    rw [ht] at hs'
    cases pending with
    | nil =>
      cases hs'
      exact hmove _ (by rw [ht]; rfl)
    | cons n pending =>
      dsimp only at hs'
      split at hs' <;> cases hs'
      · exact hmove _ (by rw [ht]; rfl)
      · exact hmove _ (by rw [ht]; rfl)
  | awaiting n phase pending waited =>
    rw [ht] at hs'
    exact result_wait (.awaiting n · pending waited) (fun _ => rfl) (fun _ => rfl) ht hs'
  | departing waited | closing e | leaving =>
    rw [ht] at hs'
    cases hs'
    exact hmove _ (by rw [ht]; rfl)
  | started | finishing | keeping e =>
    rw [ht] at hs'
    cases hs'
    simp [result, ht, Stage.kept]

/-- A program comes to a result only when it ends. -/
theorem result_choose (h : s.Sound) (ht : s.stage t = .working) {c : Choice}
    (hs' : s.choose t c = some s') (e : Ending) :
    s'.result t = some e ↔ s.result t = some e ∨ c = .finish e := by
  have hnone : (s.shared t).ending = none := by
    have hsuits := h.suits t
    rw [ht] at hsuits
    exact hsuits.2
  have hold : s.result t = none := by simp [result, ht, hnone, Stage.kept]
  cases c with
  | go => cases hs'
  | spawn =>
    cases hs'
    have hlt : t ≠ s.size := by
      rintro rfl
      have hu := (h.beyond s.size (Nat.le_refl _)).1
      rw [ht] at hu
      cases hu
    simp [result_move, hold, Stage.kept, create, Function.update_of_ne hlt, hnone]
  | join n =>
    obtain ⟨-, ⟨⟩⟩ := Option.ite_none_right_eq_some.mp hs'
    simp [result_move, hold, hnone, Stage.kept]
  | finish e' =>
    obtain ⟨-, ⟨⟩⟩ := Option.ite_none_right_eq_some.mp hs'
    simp [result_move, hold, Stage.kept]
  | crash | shutdown =>
    obtain ⟨-, ⟨⟩⟩ := Option.ite_none_right_eq_some.mp hs'
    simp [result_move, hold, hnone, Stage.kept]

theorem result_step (h : s.Sound) {c : Choice} (hs' : s.step t c = some s') (n : Nat) (e : Ending) :
    s'.result n = some e ↔ s.result n = some e ∨ (n, .finish e) = (t, c) := by
  by_cases hn : n = t
  · subst hn
    rcases step_cases hs' with ⟨ht, hchoose⟩ | ⟨rfl, hproceed⟩
    · simp [result_choose h ht hchoose, eq_comm]
    · simp [result_proceed hproceed]
  · simp [(h.step hs').1.result hn, hn]

/-- A task has the result to which its program came in the run. -/
theorem result_run (h : s.Sound) {schedule : List (Nat × Choice)}
    (hs' : s.run schedule = some s') (n : Nat) (e : Ending) :
    s'.result n = some e ↔ s.result n = some e ∨ (n, .finish e) ∈ schedule := by
  induction schedule generalizing s with
  | nil =>
    cases hs'
    simp
  | cons x rest ih =>
    obtain ⟨s₁, hstep, hrest⟩ := Option.bind_eq_some_iff.mp hs'
    rw [ih (h.step hstep).2 hrest, result_step h hstep, List.mem_cons, or_assoc]

end

/-- However the threads of spawning, running and joining tasks are mixed: each step leaves the state
of a task or moves it to the next one; whoever joins a task gets an ending, after the thread of the
task has exited, and it is the only one that the program of the task ever came to; and no join
finds the ending missing. -/
theorem joiners_agree {schedule : List (Nat × Choice)} {s : Threads}
    (h : boot.run schedule = some s) :
    (∀ t c s', s.step t c = some s' → ∀ n, (s'.shared n).state = (s.shared n).state ∨
      (s.shared n).state.Next (s'.shared n).state) ∧
    (∀ j n seen, s.stage j = .untracking n seen → s.stage n = .exited ∧
      ∃ e, seen = some e ∧ ∀ e', (n, Choice.finish e') ∈ schedule ↔ e' = e) ∧
    ∀ n, s.fault ≠ some (.noOutcome n) := by
  have hsound := boot_sound.run h
  refine ⟨fun t c s' hs' n => (hsound.step hs').1.forward n, ?_, hsound.fault⟩
  intro j n seen hj
  have hrelies := hsound.relies j
  rw [hj] at hrelies
  obtain ⟨hx, rfl⟩ := hrelies
  have hsuits := hsound.suits n
  rw [hx] at hsuits
  obtain ⟨e, he⟩ := Option.isSome_iff_exists.mp hsuits.2
  refine ⟨hx, e, he, fun e' => ?_⟩
  have hboot : boot.result n ≠ some e' := by
    by_cases hn : n = 0 <;> simp [result, boot, hn, Stage.kept]
  have hrun := result_run boot_sound h n e'
  simp only [hboot, false_or] at hrun
  rw [← hrun]
  simp [result, hx, he, Stage.kept, eq_comm]

/-- Some steps of a thread that has no choice. -/
def goes (t k : Nat) : List (Nat × Choice) := List.replicate k (t, .go)

/-- The main thread and task 2 both join task 1, which ends in between. -/
def rivals (e : Ending) : List (Nat × Choice) :=
  List.flatten [(0, .spawn) :: goes 0 4, (0, .spawn) :: goes 0 4, goes 1 1, goes 2 1,
    [(2, .join 1), (0, .join 1)], goes 2 2, (1, .finish e) :: goes 1 4, goes 2 4, goes 0 4]

theorem joiners_agree_rivals :
    ∃ s, boot.run (rivals (.returned .nil)) = some s ∧
      s.stage 0 = .untracking 1 (some (.returned .nil)) ∧
      s.stage 2 = .untracking 1 (some (.returned .nil)) ∧
      s.stage 1 = .exited ∧ ∀ n, s.fault ≠ some (.noOutcome n) := by
  refine ⟨_, rfl, rfl, rfl, ?_⟩
  obtain ⟨-, hread, hfault⟩ :=
    joiners_agree (show boot.run (rivals (.returned .nil)) = some _ from rfl)
  exact ⟨(hread 0 1 _ rfl).1, hfault⟩

/-! ## Waiting for all -/

/-- When the main thread has found nothing left to wait for, the list of tasks is empty, the thread
of every task that was ever made has exited and left its ending, and nobody but the main thread can
make a step. -/
theorem shutdown_complete {schedule : List (Nat × Choice)} {s : Threads} {waited : Nat}
    (h : boot.run schedule = some s) (hmain : s.stage 0 = .departing waited) :
    s.unjoined = [] ∧
    (∀ n, 0 < n → n < s.size → s.stage n = .exited ∧ (s.shared n).ending.isSome) ∧
    ∀ t c, t ≠ 0 → s.step t c = none := by
  have hsound := boot_sound.run h
  have hrelies := hsound.relies 0
  rw [hmain] at hrelies
  obtain ⟨-, hlist, hall⟩ := hrelies
  refine ⟨hlist, fun n hpos hn => ?_, fun t c ht => ?_⟩
  · have hsuits := hsound.suits n
    rw [hall n hpos hn] at hsuits
    exact ⟨hall n hpos hn, hsuits.2⟩
  · -- a thread that makes a step has been started and has not exited
    refine Option.eq_none_iff_forall_ne_some.mpr fun s' hs' => ?_
    obtain ⟨hborn, hon⟩ := (hsound.step hs').1.awake
    rcases Nat.lt_or_ge t s.size with hlt | hge
    · exact hon (hall t (Nat.pos_of_ne_zero ht) hlt)
    · exact hborn (hsound.beyond t hge).1

/-- Task 1 starts task 2 but has not put it on the list when the main thread takes the list. -/
def latecomer (e : Ending) : List (Nat × Choice) :=
  List.flatten [(0, .spawn) :: goes 0 4, goes 1 1, (1, .spawn) :: goes 1 2, goes 2 1,
    (0, .shutdown) :: goes 0 4, goes 1 2, (1, .finish e) :: goes 1 4, goes 0 8,
    (2, .finish e) :: goes 2 4, goes 0 7]

theorem shutdown_complete_latecomer :
    ∃ s, boot.run (latecomer (.returned .nil)) = some s ∧ s.size = 3 ∧ s.stage 0 = .departing 2 ∧
      s.unjoined = [] ∧ s.stage 1 = .exited ∧ s.stage 2 = .exited := by
  refine ⟨_, rfl, rfl, rfl, ?_⟩
  obtain ⟨hlist, hall, -⟩ :=
    shutdown_complete (show boot.run (latecomer (.returned .nil)) = some _ from rfl) rfl
  exact ⟨hlist, (hall 1 (by decide) (by decide)).1, (hall 2 (by decide) (by decide)).1⟩

end Threads
end ObjectMachine
