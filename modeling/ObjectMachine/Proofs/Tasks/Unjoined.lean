import Mathlib.Data.List.Permutation
import ObjectMachine.Proofs.Tasks.Schedules
import ObjectMachine.Proofs.Vm.Quiet

/-!
# ObjectMachine.Proofs.Tasks.Unjoined

The list of tasks that nobody has joined, when the threads also exchange messages.

A thread puts a task that it has started on the list when others may already join it, and who joins
a task takes it off whether or not it is there. So the list is compared with a record of the calls
that have returned, in the order in which they did: a task that is joined before the call that made
it has returned is put on the list afterwards, and stays. A call to join the calling task or the
main task is refused and leaves the list as it is.

* `Ledger.Entry`, `Ledger` — the threads and their mailboxes, with a record of what was done.
* `Ledger.step`, `Ledger.run` — what a thread may do next; such steps in any order.
* `Ledger.listed` — the list of tasks as the record has it.
* `Ledger.Orderly` — what holds after every step.
* `Ledger.joined_untracked` — which tasks are on the list.
-/

namespace ObjectMachine

/-- What a thread has done. -/
inductive Ledger.Entry where
  | sent (target : Nat) (message : Packed)
  | received (message : Packed)
  | spawned (child : Nat)
  | joined (target : Nat)
  | refused (target : Nat) (e : Error)
  /-- It has taken the whole list, to wait for the tasks on it. -/
  | collected

namespace Ledger.Entry

/-- What the entry does to the list of tasks. -/
def book : Entry → List Nat → List Nat
  | .spawned n, l => l ++ [n]
  | .joined n, l => l.filter (· ≠ n)
  | .collected, _ => []
  | .sent _ _, l | .received _, l | .refused _ _, l => l

def child? : Entry → Option Nat
  | .spawned n => some n
  | _ => none

/-- The task is taken off the list. -/
def Removes (n : Nat) : Entry → Prop
  | .joined m => m = n
  | .collected => True
  | _ => False

variable {e : Entry} {l : List Nat} {n : Nat}

theorem mem_book (h : n ∈ e.book l) : n ∈ l ∨ e.child? = some n := by
  cases e with
  | spawned m => simpa [book, child?, eq_comm] using h
  | joined m => exact .inl (List.mem_filter.mp h).1
  | collected => cases h
  | sent | received | refused => exact .inl h

theorem mem_book_of_mem (h : n ∈ l) (he : ¬ e.Removes n) : n ∈ e.book l := by
  cases e with
  | spawned m => exact List.mem_append_left _ h
  | joined m => exact List.mem_filter.mpr ⟨h, decide_eq_true (Ne.symm he)⟩
  | collected => exact absurd trivial he
  | sent | received | refused => exact h

theorem not_mem_book (he : e.Removes n) : n ∉ e.book l := by
  cases e with
  | joined m =>
    obtain rfl : m = n := he
    simp [book]
  | collected => exact List.not_mem_nil
  | spawned | sent | received | refused => exact he.elim

theorem nodup_book (h : l.Nodup) (hnew : ∀ n, e.child? = some n → n ∉ l) : (e.book l).Nodup := by
  cases e with
  | spawned m =>
    refine List.nodup_append.mpr ⟨h, List.pairwise_singleton .., fun a ha b hb => ?_⟩
    rw [List.mem_singleton.mp hb]
    exact ne_of_mem_of_not_mem ha (hnew m rfl)
  | joined m => exact h.filter _
  | collected => exact List.nodup_nil
  | sent | received | refused => exact h

end Ledger.Entry

/-! ## Records -/

namespace Ledger

/-- The tasks whose making is on record, the newest first. -/
def children (record : List (Nat × Entry)) : List Nat :=
  record.filterMap (·.2.child?)

/-- The list of tasks as the record has it. -/
def listed (record : List (Nat × Entry)) : List Nat :=
  record.foldr (·.2.book) []

section

variable {later earlier record : List (Nat × Entry)} {n p : Nat}

theorem mem_children_of_listed (h : n ∈ listed record) : n ∈ children record := by
  induction record with
  | nil => cases h
  | cons x record ih =>
    rcases Entry.mem_book h with hmem | hchild
    · obtain ⟨y, hy, hyn⟩ := List.mem_filterMap.mp (ih hmem)
      exact List.mem_filterMap.mpr ⟨y, List.mem_cons_of_mem _ hy, hyn⟩
    · exact List.mem_filterMap.mpr ⟨x, List.mem_cons_self, hchild⟩

theorem children_silent {e : Entry} (he : e.child? = none) :
    children ((p, e) :: record) = children record :=
  List.filterMap_cons_none he

theorem mem_children : n ∈ children record ↔ ∃ p, (p, .spawned n) ∈ record := by
  rw [children, List.mem_filterMap]
  constructor
  · rintro ⟨⟨p, e⟩, hmem, he⟩
    cases e with
    | spawned m =>
      cases he
      exact ⟨p, hmem⟩
    | _ => cases he
  · rintro ⟨p, hmem⟩
    exact ⟨_, hmem, rfl⟩

/-- If a task was made last, it is not on record before. -/
theorem children_cons {x : Nat × Entry} (h : (children (x :: record)).Nodup) :
    (children record).Nodup ∧ ∀ n, x.2.child? = some n → n ∉ children record := by
  rw [children, List.filterMap_cons] at h
  cases hx : x.2.child? with
  | none =>
    rw [hx] at h
    exact ⟨h, nofun⟩
  | some m =>
    rw [hx] at h
    obtain ⟨hnew, hold⟩ := List.nodup_cons.mp h
    refine ⟨hold, fun n hn => ?_⟩
    cases hn
    exact hnew

theorem nodup_listed (h : (children record).Nodup) : (listed record).Nodup := by
  induction record with
  | nil => exact List.nodup_nil
  | cons x record ih =>
    obtain ⟨hold, hnew⟩ := children_cons h
    exact Entry.nodup_book (ih hold) fun n hn hmem => hnew n hn (mem_children_of_listed hmem)

/-- A task stays on the list until it is taken off. -/
theorem mem_listed (h : ∀ x ∈ later, ¬ x.2.Removes n) :
    n ∈ listed (later ++ (p, .spawned n) :: earlier) := by
  induction later with
  | nil => exact List.mem_append_right _ (List.mem_singleton.mpr rfl)
  | cons x later ih =>
    obtain ⟨hx, hlater⟩ := List.forall_mem_cons.mp h
    exact Entry.mem_book_of_mem (ih hlater) hx

/-- A task that was taken off the list does not return to it. -/
theorem not_mem_listed (h : (children (later ++ (p, .spawned n) :: earlier)).Nodup)
    {x : Nat × Entry} (hx : x ∈ later) (hn : x.2.Removes n) :
    n ∉ listed (later ++ (p, .spawned n) :: earlier) := by
  induction later with
  | nil => cases hx
  | cons y later ih =>
    obtain ⟨hold, hnew⟩ := children_cons h
    rcases List.mem_cons.mp hx with rfl | hx
    · exact Entry.not_mem_book hn
    · intro hmem
      rcases Entry.mem_book hmem with hmem | hchild
      · exact ih hold hx hmem
      · exact hnew n hchild (mem_children.mpr ⟨p, List.mem_append_right _ List.mem_cons_self⟩)

/-- What was done before a task was put on the list does not decide whether it is there. -/
theorem mem_listed_iff (h : (children (later ++ (p, .spawned n) :: earlier)).Nodup) :
    n ∈ listed (later ++ (p, .spawned n) :: earlier) ↔ ∀ x ∈ later, ¬ x.2.Removes n := by
  constructor
  · intro hmem x hx hn
    exact not_mem_listed h hx hn hmem
  · exact mem_listed

end

end Ledger

/-! ## Threads and what they have done -/

/-- What a thread will have done when it has made its next step. -/
def Stage.entry : Stage → Option Ledger.Entry
  | .spawning n .track => some (.spawned n)
  | .untracking n _ => some (.joined n)
  | .collecting _ => some .collected
  | _ => none

theorem Stage.entry_cases (g : Stage) :
    (∃ n, g = .spawning n .track ∧ g.entry.bind Ledger.Entry.child? = some n) ∨
      g.entry.bind Ledger.Entry.child? = none := by
  cases g with
  | spawning n phase =>
    cases phase with
    | track => exact .inl ⟨n, rfl, rfl⟩
    | _ => exact .inr rfl
  | _ => exact .inr rfl

/-- Why a task may not join another one. -/
def refusal (t n : Nat) : Option Error :=
  if n = t then some .joinSelf else if n = 0 then some .joinMain else none

/-- A request to join a task of the same system is refused for this reason, and otherwise made. -/
theorem Vm.requestJoin_eq {vm : Vm} {target : Ref} {n : Nat}
    (h : Vm.taskOf target vm = .ok ⟨vm.task.system, n⟩ vm) :
    Vm.requestJoin target vm = match refusal vm.task.number n with
      | some e => .error (.raised e) vm
      | none => .ok (.join ⟨vm.task.system, n⟩) vm := by
  have hself : (⟨vm.task.system, n⟩ : TaskId) = vm.task ↔ n = vm.task.number := by
    cases vm.task
    simp
  have hget : (get : Action Vm) vm = .ok vm vm := rfl
  unfold Vm.requestJoin refusal
  rw [Action.bind_ok h, Action.bind_ok hget]
  simp only [hself]
  by_cases hn : n = vm.task.number
  · simp only [hn, if_true]
    rfl
  · by_cases hz : n = 0
    · subst hz
      simp only [hn, if_false, if_true]
      rfl
    · simp only [hn, hz, if_false, TaskId.isMain, beq_iff_eq]
      rfl

namespace Threads

/-- The thread does what its program says. -/
def free (s : Threads) (t : Nat) : Bool :=
  match s.fault, s.stage t with
  | none, .working => true
  | _, _ => false

/-- The join that a thread is refused. -/
def refused? (t : Nat) : Choice → Option (Nat × Error)
  | .join n => (refusal t n).map (n, ·)
  | _ => none

section

variable {s s' : Threads} {t n : Nat} {c : Choice}

theorem unjoined_wait {again : Waiting → Stage} {done : Option Ending → Stage} {phase : Waiting}
    (hs' : s.wait t n again done phase = some s') : s'.unjoined = s.unjoined := by
  cases phase with
  | lock =>
    obtain ⟨-, ⟨⟩⟩ := Option.ite_none_right_eq_some.mp hs'
    rfl
  | take =>
    rw [wait] at hs'
    split at hs' <;> cases hs' <;> rfl
  | exit =>
    rw [wait] at hs'
    split at hs' <;> cases hs' <;> rfl
  | mark | unlock | read =>
    cases hs'
    rfl

theorem stage_wait {again : Waiting → Stage} {done : Option Ending → Stage} {phase : Waiting}
    (ht : s.stage t = again phase) (hs' : s.wait t n again done phase = some s') :
    (∃ phase', s'.stage t = again phase') ∨ ∃ seen, s'.stage t = done seen := by
  cases phase with
  | lock =>
    obtain ⟨-, ⟨⟩⟩ := Option.ite_none_right_eq_some.mp hs'
    exact .inl ⟨_, stage_move_self ..⟩
  | take =>
    rw [wait] at hs'
    split at hs' <;> cases hs' <;> exact .inl ⟨_, stage_move_self ..⟩
  | exit =>
    rw [wait] at hs'
    split at hs' <;> cases hs'
    · exact .inl ⟨_, stage_move_self ..⟩
    · exact .inl ⟨_, ht⟩
  | mark | unlock =>
    cases hs'
    exact .inl ⟨_, stage_move_self ..⟩
  | read =>
    cases hs'
    exact .inr ⟨_, stage_move_self ..⟩

/-- A thread that goes on to join a task was not refused. -/
theorem refused?_of_step (hs' : s.step t c = some s') : refused? t c = none := by
  rcases step_cases hs' with ⟨-, hs'⟩ | ⟨rfl, -⟩
  · cases c with
    | join n =>
      obtain ⟨⟨hne, hpos, -⟩, -⟩ := Option.ite_none_right_eq_some.mp hs'
      simp [refused?, refusal, hne, Nat.ne_of_gt hpos]
    | _ => rfl
  · rfl

/-- Each step does to the list what its entry says. -/
theorem unjoined_step (hs' : s.step t c = some s') :
    s'.unjoined = (s.stage t).entry.elim s.unjoined (·.book s.unjoined) := by
  rcases step_cases hs' with ⟨ht, hs'⟩ | ⟨-, hs'⟩
  · rw [ht]
    cases c with
    | go => cases hs'
    | spawn =>
      cases hs'
      rfl
    | join | finish | crash | shutdown =>
      obtain ⟨-, ⟨⟩⟩ := Option.ite_none_right_eq_some.mp hs'
      rfl
  · unfold proceed at hs'
    cases ht : s.stage t with
    | unborn | working | exited | dead =>
      rw [ht] at hs'
      cases hs'
    | started | departing waited | closing e | keeping e | finishing | leaving =>
      rw [ht] at hs'
      cases hs'
      rfl
    | spawning n phase =>
      rw [ht] at hs'
      cases hs'
      cases phase <;> rfl
    | joining n phase | awaiting n phase pending waited =>
      rw [ht] at hs'
      exact unjoined_wait hs'
    | untracking n seen =>
      rw [ht] at hs'
      cases seen <;> cases hs' <;> rfl
    | collecting waited =>
      rw [ht] at hs'
      cases hlist : s.unjoined with
      | nil =>
        rw [hlist] at hs'
        cases hs'
        exact hlist
      | cons m rest =>
        rw [hlist] at hs'
        cases hs'
        rfl
    | examining pending waited =>
      rw [ht] at hs'
      cases pending with
      | nil =>
        cases hs'
        rfl
      | cons n pending =>
        dsimp only at hs'
        split at hs' <;> cases hs' <;> rfl

/-- A thread that is starting a task has just made it, or was starting it before. -/
theorem spawning_self {phase : Spawning} (hs' : s.step t c = some s')
    (ht' : s'.stage t = .spawning n phase) :
    n = s.size ∨ ∃ before, s.stage t = .spawning n before ∧ before ≠ .track := by
  have hmove : ∀ {x : Threads} {g : Stage}, x.move t g = s' → g = .spawning n phase := by
    rintro x g rfl
    rwa [stage_move_self] at ht'
  rcases step_cases hs' with ⟨-, hs'⟩ | ⟨-, hs'⟩
  · cases c with
    | go => cases hs'
    | spawn =>
      cases hmove (Option.some.inj hs')
      exact .inl rfl
    | join | finish | crash | shutdown =>
      obtain ⟨-, hs'⟩ := Option.ite_none_right_eq_some.mp hs'
      cases hmove (Option.some.inj hs')
  · unfold proceed at hs'
    cases ht : s.stage t with
    | unborn | working | exited | dead =>
      rw [ht] at hs'
      cases hs'
    | started | departing waited | closing e | keeping e | finishing | leaving =>
      rw [ht] at hs'
      cases hmove (Option.some.inj hs')
    | spawning m before =>
      rw [ht] at hs'
      cases before with
      | start | store | unlock =>
        cases hmove (Option.some.inj hs')
        exact .inr ⟨_, rfl, nofun⟩
      | track => cases hmove (Option.some.inj hs')
    | joining m phase | awaiting m phase pending waited =>
      rw [ht] at hs'
      rcases stage_wait ht hs' with ⟨phase', hstage⟩ | ⟨seen, hstage⟩ <;>
        cases ht'.symm.trans hstage
    | untracking m seen =>
      rw [ht] at hs'
      cases seen with
      | none =>
        cases hs'
        cases ht'.symm.trans ht
      | some e => cases hmove (Option.some.inj hs')
    | collecting waited =>
      rw [ht] at hs'
      cases hlist : s.unjoined <;> rw [hlist] at hs' <;> cases hmove (Option.some.inj hs')
    | examining pending waited =>
      rw [ht] at hs'
      cases pending with
      | nil => cases hmove (Option.some.inj hs')
      | cons m pending =>
        dsimp only at hs'
        split at hs' <;> cases hmove (Option.some.inj hs')

theorem spawning_step (h : s.Sound) (hs' : s.step t c = some s') {p : Nat} {phase : Spawning}
    (hp : s'.stage p = .spawning n phase) :
    p = t ∧ n = s.size ∨
      ∃ before, s.stage p = .spawning n before ∧ (p = t → before ≠ .track) := by
  by_cases hpt : p = t
  · subst hpt
    rcases spawning_self hs' hp with hn | ⟨before, hbefore, htrack⟩
    · exact .inl ⟨rfl, hn⟩
    · exact .inr ⟨before, hbefore, fun _ => htrack⟩
  · refine .inr ⟨phase, ?_, fun heq => absurd heq hpt⟩
    rcases (h.step hs').1.stage p hpt with hstage | ⟨-, -, hstage⟩
    · rw [← hstage, hp]
    · rw [hp] at hstage
      cases hstage

end

end Threads

/-- Threads, their mailboxes, and a record of what the threads have done. -/
structure Ledger where
  threads : Threads := .boot
  mail : Nat → Mailbox Packed := fun _ => {}
  /-- What each thread has done, the newest first. -/
  record : List (Nat × Ledger.Entry) := []

namespace Ledger

/-- What a program goes on with, where it has a choice. -/
inductive Move where
  | send (target : Nat) (message : Packed)
  | receive
  | live (c : Threads.Choice)

/-- The mailboxes when a thread has made its next step. A task whose program has come to an end
closes its own. -/
def mailAfter (s : Ledger) (t : Nat) : Nat → Mailbox Packed :=
  match s.threads.stage t with
  | .closing _ => Function.update s.mail t (s.mail t).close.2
  | _ => s.mail

/-- Thread `t` has made a step. -/
def follow (s : Ledger) (t : Nat) (threads : Threads) : Ledger where
  threads := threads
  mail := s.mailAfter t
  record := ((s.threads.stage t).entry.map (t, ·)).toList ++ s.record

/-- What thread `t` does next. -/
def step (s : Ledger) (t : Nat) : Move → Option Ledger
  | .send n p =>
    if s.threads.free t ∧ n < s.threads.size then
      some { s with
        mail := Function.update s.mail n ((s.mail n).post p)
        record := (t, .sent n p) :: s.record }
    else none
  | .receive =>
    if s.threads.free t then
      (s.mail t).take?.map fun (p, mailbox) =>
        { s with
          mail := Function.update s.mail t mailbox
          record := (t, .received p) :: s.record }
    else none
  | .live c =>
    match Threads.refused? t c with
    | some (n, e) =>
      if s.threads.free t then some { s with record := (t, .refused n e) :: s.record } else none
    | none => (s.threads.step t c).map (s.follow t)

/-- Steps of threads in the given order. -/
def run (s : Ledger) : List (Nat × Move) → Option Ledger
  | [] => some s
  | (t, d) :: rest => (s.step t d).bind fun s => s.run rest

/-- Whatever threads do can be recorded. -/
theorem exists_run {s : Ledger} {schedule : List (Nat × Threads.Choice)} {threads : Threads}
    (h : s.threads.run schedule = some threads) :
    ∃ s', s.run (schedule.map fun x => (x.1, .live x.2)) = some s' ∧ s'.threads = threads := by
  induction schedule generalizing s with
  | nil =>
    cases h
    exact ⟨s, rfl, rfl⟩
  | cons x rest ih =>
    obtain ⟨threads₁, hstep, hrest⟩ := Option.bind_eq_some_iff.mp h
    obtain ⟨s', hrun, hs'⟩ := ih (s := s.follow x.1 threads₁) hrest
    refine ⟨s', ?_, hs'⟩
    rw [List.map_cons, run, step, Threads.refused?_of_step hstep]
    dsimp only
    rw [hstep]
    exact hrun

/-- So it can be of the threads of a task system. -/
theorem exists_run_follows {s : TaskSystem} {main : Stage} (h : s.Follows main) :
    ∃ schedule c, run {} schedule = some c ∧ c.threads = s.threads main := by
  obtain ⟨schedule, hrun⟩ := h.schedule
  exact ⟨_, exists_run (s := {}) hrun⟩

theorem listed_follow (s : Ledger) (t : Nat) (threads : Threads) :
    listed (s.follow t threads).record =
      (s.threads.stage t).entry.elim (listed s.record) (·.book (listed s.record)) := by
  unfold follow
  cases (s.threads.stage t).entry <;> rfl

theorem children_follow (s : Ledger) (t : Nat) (threads : Threads) :
    children (s.follow t threads).record =
      ((s.threads.stage t).entry.bind Entry.child?).toList ++ children s.record := by
  unfold follow
  cases (s.threads.stage t).entry with
  | none => rfl
  | some e => cases e <;> rfl

/-! ## What holds after every step -/

/-- The list is what the record says, and every task is put on it once. -/
structure Orderly (s : Ledger) : Prop where
  sound : s.threads.Sound
  list : s.threads.unjoined = listed s.record
  /-- Every task is started by one thread. -/
  single : ∀ p q n before after, s.threads.stage p = .spawning n before →
    s.threads.stage q = .spawning n after → p = q
  once : (children s.record).Nodup
  /-- What is on record as made is not being started any more. -/
  past : ∀ n ∈ children s.record, n < s.threads.size ∧
    ∀ p phase, s.threads.stage p ≠ .spawning n phase

theorem start_orderly : Orderly {} where
  sound := Threads.boot_sound
  list := rfl
  single p q n before after hp hq := by
    by_cases hz : p = 0 <;> simp [Threads.boot, hz] at hp
  once := List.nodup_nil
  past := nofun

namespace Orderly

variable {s s' : Ledger} {t : Nat}

/-- A move that leaves the threads alone and has nothing to do with the list. -/
theorem note (h : s.Orderly) {e : Entry} (mail : Nat → Mailbox Packed)
    (hbook : e.book s.threads.unjoined = s.threads.unjoined) (hchild : e.child? = none) :
    Orderly { s with mail, record := (t, e) :: s.record } where
  sound := h.sound
  list := by
    rw [h.list] at hbook
    exact h.list.trans hbook.symm
  single := h.single
  once := by
    rw [children_silent hchild]
    exact h.once
  past := by
    rw [children_silent hchild]
    exact h.past

section

variable {c : Threads.Choice} {threads : Threads}

/-- Who makes a task is not starting another one. -/
theorem single_step (h : s.Orderly) (hs' : s.threads.step t c = some threads) {p q n : Nat}
    {before after : Spawning} (hp : threads.stage p = .spawning n before)
    (hq : threads.stage q = .spawning n after) : p = q := by
  have hfresh : ∀ q m phase, s.threads.stage q = .spawning m phase → m ≠ s.threads.size := by
    intro q m phase hq
    have hrelies := h.sound.relies q
    rw [hq] at hrelies
    exact Nat.ne_of_lt hrelies.2.1
  rcases Threads.spawning_step h.sound hs' hp with ⟨rfl, hnp⟩ | ⟨_, hp, -⟩
  · rcases Threads.spawning_step h.sound hs' hq with ⟨rfl, -⟩ | ⟨_, hq, -⟩
    · rfl
    · exact absurd hnp (hfresh _ _ _ hq)
  · rcases Threads.spawning_step h.sound hs' hq with ⟨-, hnq⟩ | ⟨_, hq, -⟩
    · exact absurd hnq (hfresh _ _ _ hp)
    · exact h.single _ _ _ _ _ hp hq

theorem past_step (h : s.Orderly) (hs' : s.threads.step t c = some threads) {n : Nat}
    (hn : n ∈ children s.record) :
    n < threads.size ∧ ∀ p phase, threads.stage p ≠ .spawning n phase := by
  obtain ⟨hlt, hnobody⟩ := h.past n hn
  refine ⟨Nat.lt_of_lt_of_le hlt (h.sound.step hs').1.size, fun p phase hp => ?_⟩
  rcases Threads.spawning_step h.sound hs' hp with ⟨-, hsize⟩ | ⟨_, hp, -⟩
  · exact absurd hsize (Nat.ne_of_lt hlt)
  · exact hnobody _ _ hp

/-- The task that a thread puts on the list is not being started any more. -/
theorem tracked_step (h : s.Orderly) (hs' : s.threads.step t c = some threads) {n : Nat}
    (ht : s.threads.stage t = .spawning n .track) :
    n < threads.size ∧ ∀ p phase, threads.stage p ≠ .spawning n phase := by
  have hrelies := h.sound.relies t
  rw [ht] at hrelies
  refine ⟨Nat.lt_of_lt_of_le hrelies.2.1 (h.sound.step hs').1.size, fun p phase hp => ?_⟩
  rcases Threads.spawning_step h.sound hs' hp with ⟨-, hsize⟩ | ⟨before, hp, hother⟩
  · exact absurd hsize (Nat.ne_of_lt hrelies.2.1)
  · obtain rfl := h.single _ _ _ _ _ hp ht
    rw [ht] at hp
    cases hp
    exact hother rfl rfl

theorem follow (h : s.Orderly) (hs' : s.threads.step t c = some threads) :
    (s.follow t threads).Orderly := by
  have hlist : threads.unjoined = listed (s.follow t threads).record := by
    rw [listed_follow, ← h.list]
    exact Threads.unjoined_step hs'
  have hchildren := children_follow s t threads
  rcases (s.threads.stage t).entry_cases with ⟨n, ht, hentry⟩ | hentry <;> rw [hentry] at hchildren
  · refine ⟨(h.sound.step hs').2, hlist, fun _ _ _ _ _ => h.single_step hs', ?_, ?_⟩
    · rw [hchildren]
      -- the thread is still at it, so nobody has put the task on the list before
      exact List.nodup_cons.mpr ⟨fun hn => (h.past n hn).2 t .track ht, h.once⟩
    · rw [hchildren]
      exact List.forall_mem_cons.mpr ⟨h.tracked_step hs' ht, fun _ => h.past_step hs'⟩
  · refine ⟨(h.sound.step hs').2, hlist, fun _ _ _ _ _ => h.single_step hs', ?_, ?_⟩
    · rw [hchildren]
      exact h.once
    · rw [hchildren]
      exact fun _ => h.past_step hs'

end

theorem step (h : s.Orderly) {d : Move} (hs' : s.step t d = some s') : s'.Orderly := by
  cases d with
  | send n p =>
    obtain ⟨-, ⟨⟩⟩ := Option.ite_none_right_eq_some.mp hs'
    exact h.note _ rfl rfl
  | receive =>
    obtain ⟨-, hs'⟩ := Option.ite_none_right_eq_some.mp hs'
    obtain ⟨⟨p, mailbox⟩, -, rfl⟩ := Option.map_eq_some_iff.mp hs'
    exact h.note _ rfl rfl
  | live c =>
    rw [Ledger.step] at hs'
    split at hs'
    · obtain ⟨-, ⟨⟩⟩ := Option.ite_none_right_eq_some.mp hs'
      exact h.note _ rfl rfl
    · obtain ⟨threads, hstep, rfl⟩ := Option.map_eq_some_iff.mp hs'
      exact h.follow hstep

theorem run (h : s.Orderly) {schedule : List (Nat × Move)} (hs' : s.run schedule = some s') :
    s'.Orderly := by
  induction schedule generalizing s with
  | nil =>
    cases hs'
    exact h
  | cons x rest ih =>
    obtain ⟨s₁, hstep, hrest⟩ := Option.bind_eq_some_iff.mp hs'
    exact ih (h.step hstep) hrest

end Orderly

/-! ## Who is on the list -/

/-- In whatever order tasks are made, send, receive, join and end: the list names no task twice, and
only tasks whose making has returned. Of these it names one exactly if, since the call that made it
has returned, nobody has joined it and the main thread has not taken the whole list. -/
theorem joined_untracked {schedule : List (Nat × Move)} {s : Ledger}
    (h : run {} schedule = some s) :
    s.threads.unjoined.Nodup ∧
    (∀ n ∈ s.threads.unjoined, ∃ p, (p, .spawned n) ∈ s.record) ∧
    ∀ n p later earlier, s.record = later ++ (p, .spawned n) :: earlier →
      (n ∈ s.threads.unjoined ↔ (∀ j, (j, .joined n) ∉ later) ∧ ∀ m, (m, .collected) ∉ later) := by
  have horderly := start_orderly.run h
  rw [horderly.list]
  refine ⟨nodup_listed horderly.once, fun n hn => ?_, ?_⟩
  · exact mem_children.mp (mem_children_of_listed hn)
  · intro n p later earlier hrecord
    have honce := horderly.once
    rw [hrecord] at honce ⊢
    rw [mem_listed_iff honce]
    constructor
    · intro hkept
      exact ⟨fun j hj => hkept _ hj rfl, fun m hm => hkept _ hm trivial⟩
    · rintro ⟨hjoined, hcollected⟩ ⟨t, e⟩ hx hremoves
      cases e with
      | joined m =>
        cases hremoves
        exact hjoined t hx
      | collected => exact hcollected t hx
      | sent | received | spawned | refused => cases hremoves

/-- Some steps of a thread that has no choice. -/
def goes (t k : Nat) : List (Nat × Move) := List.replicate k (t, .live .go)

/-- A thread makes a task and starts its thread. The new task is not yet on the list. -/
def launches (t n : Nat) : List (Nat × Move) := (t, .live .spawn) :: goes t 3 ++ goes n 1

/-- The program of a task ends, and so does its thread. -/
def ends (t : Nat) (e : Ending) : List (Nat × Move) := (t, .live (.finish e)) :: goes t 4

/-- Task 1 sends itself to task 2, which joins it. -/
def relayed (e : Ending) : List (Nat × Move) :=
  List.flatten [launches 0 1, goes 0 1, launches 0 2, goes 0 1, [(1, .send 2 (.task ⟨0, 1⟩))],
    ends 1 e, [(2, .receive), (2, .live (.join 1))], goes 2 7]

theorem joined_untracked_relayed :
    ∃ s, run {} (relayed (.returned .nil)) = some s ∧
      s.record = [(2, .joined 1), (2, .received (.task ⟨0, 1⟩)), (1, .sent 2 (.task ⟨0, 1⟩)),
        (0, .spawned 2), (0, .spawned 1)] ∧
      1 ∉ s.threads.unjoined ∧ 2 ∈ s.threads.unjoined ∧ s.threads.unjoined.Nodup := by
  obtain ⟨s, hrun, hrecord⟩ : ∃ s, run {} (relayed (.returned .nil)) = some s ∧
      s.record = [(2, .joined 1), (2, .received (.task ⟨0, 1⟩)), (1, .sent 2 (.task ⟨0, 1⟩)),
        (0, .spawned 2), (0, .spawned 1)] :=
    Option.map_eq_some_iff.mp (by cbv)
  obtain ⟨hnodup, -, hlisted⟩ := joined_untracked hrun
  refine ⟨s, hrun, hrecord, fun hmem => ?_, ?_, hnodup⟩
  · exact ((hlisted 1 0 [_, _, _, _] [] hrecord).mp hmem).1 2 List.mem_cons_self
  · exact (hlisted 2 0 [_, _, _] [_] hrecord).mpr (by simp)

/-- Task 2 sends itself to task 1 and ends, and task 1 joins it, all before the call that made it
has returned to the main thread. -/
def overtaken (e : Ending) : List (Nat × Move) :=
  List.flatten [launches 0 1, goes 0 1, launches 0 2, [(2, .send 1 (.task ⟨0, 2⟩))], ends 2 e,
    [(1, .receive), (1, .live (.join 2))], goes 1 7, goes 0 1]

/-- So a task may have been made and joined, both calls having returned, and be on the list. -/
theorem joined_untracked_overtaken :
    ¬ ∀ (schedule : List (Nat × Move)) (s : Ledger) (n : Nat), run {} schedule = some s →
      (∃ p, (p, .spawned n) ∈ s.record) → (∃ j, (j, .joined n) ∈ s.record) →
      n ∉ s.threads.unjoined := by
  intro hclaim
  obtain ⟨s, hrun, hs⟩ : ∃ s, run {} (overtaken (.returned .nil)) = some s ∧
      (s.record, s.threads.unjoined) = ([(0, .spawned 2), (1, .joined 2),
        (1, .received (.task ⟨0, 2⟩)), (2, .sent 1 (.task ⟨0, 2⟩)), (0, .spawned 1)], [1, 2]) :=
    Option.map_eq_some_iff.mp (by cbv)
  obtain ⟨hrecord, hlist⟩ := Prod.mk.inj hs
  refine hclaim _ s 2 hrun ⟨0, ?_⟩ ⟨1, ?_⟩ ?_
  · simp [hrecord]
  · simp [hrecord]
  · simp [hlist]

end Ledger
end ObjectMachine
