import Mathlib.Data.List.Nodup
import Mathlib.Logic.Function.Basic
import ObjectMachine.Mailbox
import ObjectMachine.Packed

/-!
# ObjectMachine.Proofs.Tasks.Delivery

What becomes of the messages to one task, however the tasks that post, and the owner, get in each
other's way.

A post is made of indivisible steps: it adds its message, looks whether the mailbox is closed, and
if so removes messages one by one until it finds none. To close the mailbox the owner marks it, and
then removes messages in the same way. Between any two steps all others may make theirs.

* `Traffic` — a mailbox, the tasks at work on it, and what became of the messages so far.
* `Traffic.step`, `Traffic.run` — the next step of somebody; such steps in any order.
* `Traffic.post_alone`, `Traffic.close_alone` — without interruption the steps make up
  `Mailbox.post` and `Mailbox.close`.
* `Traffic.Orderly` — what holds after every step.
* `Traffic.messages_delivered` — the messages of every sender are taken in their order, none gets
  lost before the mailbox is closed, and none is left behind afterwards.
-/

namespace ObjectMachine

/-- A message, who posted it, and how many messages that task had posted before. -/
structure Letter where
  sender : Nat
  number : Nat
  message : Packed

/-- How far a task is with its post. -/
inductive Posting where
  | idle
  /-- Its message is in the queue. It has still to look whether the mailbox is closed. -/
  | testing
  /-- It found the mailbox closed. -/
  | draining
deriving DecidableEq

/-- How far the owner is. -/
inductive Owning where
  | taking
  /-- It has marked the mailbox as closed. -/
  | closing
  | done
deriving DecidableEq

structure Traffic where
  mailbox : Mailbox Letter := {}
  /-- How far each task is with its post. -/
  posting : Nat → Posting := fun _ => .idle
  owner : Owning := .taking
  /-- What each task has posted, in its order. -/
  posts : Nat → List Packed := fun _ => []
  /-- What the owner has taken, oldest first. -/
  taken : List Letter := []
  /-- What was removed from the closed mailbox, oldest first. -/
  dropped : List Letter := []

namespace Traffic

/-- Whose turn it is. Tasks that post are told by their number. -/
inductive Move where
  | post (s : Nat) (m : Packed)
  | test (s : Nat)
  | drain (s : Nat)
  | take
  | shut
  | clear

def setPosting (x : Traffic) (s : Nat) (p : Posting) : Traffic :=
  { x with posting := Function.update x.posting s p }

/-- Adds a message of a task. -/
def enter (x : Traffic) (s : Nat) (m : Packed) : Traffic :=
  { x with
    mailbox := x.mailbox.enqueue ⟨s, (x.posts s).length, m⟩
    posts := Function.update x.posts s (x.posts s ++ [m]) }

/-- Removes the oldest message for good. -/
def discard? (x : Traffic) : Option Traffic :=
  x.mailbox.take?.map fun (l, b) => { x with mailbox := b, dropped := x.dropped ++ [l] }

/-- The next step of a task or of the owner; `none` if that is not where it stands. -/
def step (x : Traffic) : Move → Option Traffic
  | .post s m =>
    if x.posting s = .idle then some ((x.enter s m).setPosting s .testing) else none
  | .test s =>
    if x.posting s = .testing then
      some (x.setPosting s (if x.mailbox.closed then .draining else .idle))
    else none
  | .drain s =>
    if x.posting s = .draining then some (x.discard?.getD (x.setPosting s .idle)) else none
  | .take =>
    if x.owner = .taking then
      x.mailbox.take?.map fun (l, b) => { x with mailbox := b, taken := x.taken ++ [l] }
    else none
  | .shut =>
    if x.owner = .taking then some { x with mailbox := x.mailbox.shut, owner := .closing }
    else none
  | .clear =>
    if x.owner = .closing then some (x.discard?.getD { x with owner := .done }) else none

/-- Steps in the given order. -/
def run (x : Traffic) : List Move → Option Traffic
  | [] => some x
  | m :: rest => (x.step m).bind fun y => y.run rest

/-- The letters of a task, in the order in which it posted them. -/
def sent (x : Traffic) (s : Nat) : List Letter :=
  (x.posts s).mapIdx fun i m => ⟨s, i, m⟩

/-- Every letter that was ever in the queue, in the order in which they got there. -/
def entered (x : Traffic) : List Letter :=
  x.taken ++ x.dropped ++ x.mailbox.queue

/-! ## Without interruption -/

theorem run_cons {x y z : Traffic} {m : Move} {ms : List Move} (h : x.step m = some y)
    (hrun : y.run ms = some z) : x.run (m :: ms) = some z := by
  rw [run, h]
  exact hrun

theorem discard?_eq_none {x : Traffic} (h : x.mailbox.queue = []) : x.discard? = none := by
  rw [discard?, Mailbox.take?_eq_none.mpr h]
  rfl

theorem discard?_eq_some {x y : Traffic} (h : x.discard? = some y) :
    ∃ l b, x.mailbox.queue = l :: b.queue ∧ b.closed = x.mailbox.closed ∧
      y = { x with mailbox := b, dropped := x.dropped ++ [l] } := by
  obtain ⟨⟨l, b⟩, htake, rfl⟩ := Option.map_eq_some_iff.mp h
  obtain ⟨hqueue, hclosed⟩ := Mailbox.take?_eq_some.mp htake
  exact ⟨l, b, hqueue, hclosed, rfl⟩

/-- Whoever removes messages on its own removes them all. -/
theorem discard_alone {m : Move} {done : Traffic → Traffic} (P : Traffic → Prop)
    (hkeep : ∀ x y, P x → x.discard? = some y → P y)
    (hstep : ∀ x, P x → x.step m = some (x.discard?.getD (done x))) (x : Traffic) (hx : P x) :
    ∃ moves y, x.run moves = some (done y) ∧ y.mailbox = x.mailbox.drain.2 ∧ P y := by
  induction hq : x.mailbox.queue generalizing x with
  | nil =>
    have hnone := hstep x hx
    rw [discard?_eq_none hq] at hnone
    refine ⟨[m], x, run_cons hnone rfl, ?_, hx⟩
    rw [Mailbox.drain, ← hq]
  | cons l rest ih =>
    have htake : x.mailbox.take? = some (l, { x.mailbox with queue := rest }) :=
      Mailbox.take?_eq_some.mpr ⟨hq, rfl⟩
    have hsome : x.discard? = some
        { x with mailbox := { x.mailbox with queue := rest }, dropped := x.dropped ++ [l] } := by
      rw [discard?, htake]
      rfl
    have hfirst := hstep x hx
    rw [hsome] at hfirst
    obtain ⟨moves, y, hrun, hbox, hy⟩ := ih _ (hkeep _ _ hx hsome) rfl
    exact ⟨m :: moves, y, run_cons hfirst hrun, hbox, hy⟩

theorem posting_discard {s : Nat} {p : Posting} (x y : Traffic) (hx : x.posting s = p)
    (h : x.discard? = some y) : y.posting s = p := by
  obtain ⟨l, b, -, -, rfl⟩ := discard?_eq_some h
  exact hx

theorem owner_discard {o : Owning} (x y : Traffic) (hx : x.owner = o)
    (h : x.discard? = some y) : y.owner = o := by
  obtain ⟨l, b, -, -, rfl⟩ := discard?_eq_some h
  exact hx

/-- A post that nobody interrupts. -/
theorem post_alone (x : Traffic) {s : Nat} (hs : x.posting s = .idle) (m : Packed) :
    ∃ moves y, x.run moves = some y ∧
      y.mailbox = x.mailbox.post ⟨s, (x.posts s).length, m⟩ ∧ y.posting s = .idle := by
  let x₁ := (x.enter s m).setPosting s .testing
  have hpost : x.step (.post s m) = some x₁ := if_pos hs
  have htest : x₁.step (.test s) =
      some (x₁.setPosting s (if x.mailbox.closed then .draining else .idle)) :=
    if_pos (Function.update_self ..)
  show ∃ moves y, x.run moves = some y ∧ y.mailbox = (if x.mailbox.closed then _ else _) ∧ _
  cases hclosed : x.mailbox.closed with
  | false =>
    rw [hclosed] at htest
    exact ⟨[.post s m, .test s], x₁.setPosting s .idle, run_cons hpost (run_cons htest rfl), rfl,
      Function.update_self ..⟩
  | true =>
    rw [hclosed] at htest
    obtain ⟨moves, y, hrun, hbox, -⟩ := discard_alone (m := .drain s)
      (fun x => x.posting s = .draining) posting_discard (fun x hx => if_pos hx)
      (x₁.setPosting s .draining) (Function.update_self ..)
    exact ⟨.post s m :: .test s :: moves, _, run_cons hpost (run_cons htest hrun), hbox,
      Function.update_self ..⟩

/-- Closing a mailbox without being interrupted. -/
theorem close_alone (x : Traffic) (ho : x.owner = .taking) :
    ∃ moves y, x.run moves = some y ∧ y.mailbox = x.mailbox.close.2 ∧ y.owner = .done := by
  have hshut : x.step .shut = some { x with mailbox := x.mailbox.shut, owner := .closing } :=
    if_pos ho
  obtain ⟨moves, y, hrun, hbox, -⟩ := discard_alone (m := .clear)
    (fun x => x.owner = .closing) owner_discard (fun x hx => if_pos hx)
    { x with mailbox := x.mailbox.shut, owner := .closing } rfl
  exact ⟨.shut :: moves, _, run_cons hshut hrun, hbox, rfl⟩

/-! ## What every step keeps -/

theorem sent_nodup (x : Traffic) (s : Nat) : (x.sent s).Nodup := by
  have hnumbers : (x.sent s).map Letter.number = List.range (x.posts s).length := by
    apply List.ext_getElem <;> simp [sent]
  apply List.Nodup.of_map Letter.number
  rw [hnumbers]
  exact List.nodup_range

/-- The letters of each task went through the queue in its order, nothing is dropped before the
mailbox is closed, and whoever finds messages in a closed one has not come to its end. -/
structure Orderly (x : Traffic) : Prop where
  entered : ∀ s, x.entered.filter (·.sender = s) = x.sent s
  taking : x.owner = .taking →
    x.dropped = [] ∧ x.mailbox.closed = false ∧ ∀ s, x.posting s ≠ .draining
  closed : x.owner ≠ .taking → x.mailbox.closed = true
  owed : x.owner = .done → x.mailbox.queue ≠ [] → ∃ s, x.posting s ≠ .idle

theorem start_orderly : Orderly {} :=
  ⟨fun _ => rfl, fun _ => ⟨rfl, rfl, fun _ => nofun⟩, fun h => absurd rfl h, nofun⟩

namespace Orderly

variable {x y : Traffic}

/-- A message that is removed from a closed mailbox. Whoever removes it will look again. -/
theorem discard (h : x.Orderly) (hclosed : x.mailbox.closed = true) (hy : x.discard? = some y)
    (howed : x.owner = .done → ∃ s, x.posting s ≠ .idle) : y.Orderly := by
  obtain ⟨l, b, hqueue, hb, rfl⟩ := discard?_eq_some hy
  refine ⟨fun s => ?_, fun ho => ?_, fun _ => hb.trans hclosed, fun ho _ => howed ho⟩
  · have hsame : Traffic.entered { x with mailbox := b, dropped := x.dropped ++ [l] } =
        x.entered := by
      simp [Traffic.entered, hqueue]
    rw [hsame]
    exact h.entered s
  · rw [(h.taking ho).2.1] at hclosed
    cases hclosed

theorem post (h : x.Orderly) (s : Nat) (m : Packed) :
    ((x.enter s m).setPosting s .testing).Orderly := by
  refine ⟨fun t => ?_, fun ho => ?_, h.closed, fun _ _ => ⟨s, ?_⟩⟩
  · have hnew : ((x.enter s m).setPosting s .testing).entered =
        x.entered ++ [⟨s, (x.posts s).length, m⟩] := by
      simp [Traffic.entered, enter, setPosting, Mailbox.enqueue]
    rw [hnew, List.filter_append, h.entered t]
    by_cases hst : s = t
    · subst hst
      simp [sent, enter, setPosting, List.mapIdx_append]
    · simp [sent, enter, setPosting, hst, Ne.symm hst]
  · obtain ⟨hdropped, hopen, hcalm⟩ := h.taking ho
    refine ⟨hdropped, hopen, fun t => ?_⟩
    by_cases hst : t = s
    · simp [setPosting, hst]
    · simpa [setPosting, enter, hst] using hcalm t
  · simp [setPosting]

/-- A task that has looked at the mark: it goes on to remove messages if the mailbox is closed. -/
theorem test (h : x.Orderly) (s : Nat) :
    (x.setPosting s (if x.mailbox.closed then .draining else .idle)).Orderly := by
  refine ⟨h.entered, fun ho => ?_, h.closed, fun ho _ => ⟨s, ?_⟩⟩
  · obtain ⟨hdropped, hopen, hcalm⟩ := h.taking ho
    refine ⟨hdropped, hopen, fun t => ?_⟩
    by_cases hst : t = s
    · simp [setPosting, hst, hopen]
    · simpa [setPosting, hst] using hcalm t
  · have hclosed : x.mailbox.closed = true := h.closed (by rw [show x.owner = .done from ho]; nofun)
    simp [setPosting, hclosed]

theorem drain (h : x.Orderly) {s : Nat} (hs : x.posting s = .draining) :
    (x.discard?.getD (x.setPosting s .idle)).Orderly := by
  have howner : x.owner ≠ .taking := fun ho => (h.taking ho).2.2 s hs
  cases hd : x.discard? with
  | some y => exact h.discard (h.closed howner) hd fun _ => ⟨s, by rw [hs]; nofun⟩
  | none =>
    have hempty : x.mailbox.queue = [] :=
      Mailbox.take?_eq_none.mp (Option.map_eq_none_iff.mp hd)
    exact ⟨h.entered, fun ho => absurd ho howner, h.closed, fun _ hq => absurd hempty hq⟩

theorem take (h : x.Orderly) (ho : x.owner = .taking) {l : Letter} {b : Mailbox Letter}
    (htake : x.mailbox.take? = some (l, b)) :
    Orderly { x with mailbox := b, taken := x.taken ++ [l] } := by
  obtain ⟨hqueue, hb⟩ := Mailbox.take?_eq_some.mp htake
  obtain ⟨hdropped, hopen, hcalm⟩ := h.taking ho
  refine ⟨fun s => ?_, fun _ => ⟨hdropped, hb.trans hopen, hcalm⟩, fun hne => absurd ho hne,
    fun hdone => absurd (ho.symm.trans hdone) nofun⟩
  -- nothing was dropped so far, so what is taken next comes right after what was taken
  have hsame : Traffic.entered { x with mailbox := b, taken := x.taken ++ [l] } = x.entered := by
    simp [Traffic.entered, hqueue, hdropped]
  rw [hsame]
  exact h.entered s

theorem shut (h : x.Orderly) :
    Orderly { x with mailbox := x.mailbox.shut, owner := .closing } :=
  ⟨h.entered, nofun, fun _ => rfl, nofun⟩

theorem clear (h : x.Orderly) (ho : x.owner = .closing) :
    (x.discard?.getD { x with owner := .done }).Orderly := by
  have hclosed : x.mailbox.closed = true := h.closed (by rw [ho]; nofun)
  cases hd : x.discard? with
  | some y => exact h.discard hclosed hd fun hdone => absurd (ho.symm.trans hdone) nofun
  | none =>
    have hempty : x.mailbox.queue = [] :=
      Mailbox.take?_eq_none.mp (Option.map_eq_none_iff.mp hd)
    exact ⟨h.entered, nofun, fun _ => hclosed, fun _ hq => absurd hempty hq⟩

theorem step (h : x.Orderly) {m : Move} (hm : x.step m = some y) : y.Orderly := by
  cases m with
  | post s m =>
    obtain ⟨-, ⟨⟩⟩ := Option.ite_none_right_eq_some.mp hm
    exact h.post s m
  | test s =>
    obtain ⟨-, ⟨⟩⟩ := Option.ite_none_right_eq_some.mp hm
    exact h.test s
  | drain s =>
    obtain ⟨hs, ⟨⟩⟩ := Option.ite_none_right_eq_some.mp hm
    exact h.drain hs
  | take =>
    obtain ⟨ho, hm⟩ := Option.ite_none_right_eq_some.mp hm
    obtain ⟨⟨l, b⟩, htake, rfl⟩ := Option.map_eq_some_iff.mp hm
    exact h.take ho htake
  | shut =>
    obtain ⟨-, ⟨⟩⟩ := Option.ite_none_right_eq_some.mp hm
    exact h.shut
  | clear =>
    obtain ⟨ho, ⟨⟩⟩ := Option.ite_none_right_eq_some.mp hm
    exact h.clear ho

theorem run (h : x.Orderly) {moves : List Move} (hrun : x.run moves = some y) : y.Orderly := by
  induction moves generalizing x with
  | nil =>
    cases hrun
    exact h
  | cons m rest ih =>
    obtain ⟨z, hz, hrest⟩ := Option.bind_eq_some_iff.mp hrun
    exact ih (h.step hz) hrest

/-! ## What that means for the messages -/

theorem entered_nodup (h : x.Orderly) : x.entered.Nodup := by
  rw [List.nodup_iff_sublist]
  intro l hl
  -- a letter that entered twice would be twice among the letters of its sender
  have htwice := hl.filter (·.sender = l.sender)
  rw [h.entered l.sender] at htwice
  exact List.nodup_iff_sublist.mp (sent_nodup x l.sender) l (by simpa using htwice)

theorem mem_entered (h : x.Orderly) {s : Nat} {l : Letter} (hl : l ∈ x.sent s) :
    l ∈ x.entered := by
  rw [← h.entered s] at hl
  exact List.mem_of_mem_filter hl

theorem taken_prefix (h : x.Orderly) (s : Nat) :
    x.taken.filter (·.sender = s) <+: x.sent s := by
  rw [← h.entered s, Traffic.entered, List.append_assoc, List.filter_append]
  exact List.prefix_append _ _

end Orderly

/-- The fate of the messages to one task, after any steps of any tasks in any order. No message is
taken twice, or taken and dropped. What is neither taken nor dropped is still there, and before the
owner closes the mailbox nothing is dropped. Of every sender the owner has taken the first messages,
in their order. Once the owner has closed the mailbox and no post is under way, it is empty. -/
theorem messages_delivered {moves : List Move} {x : Traffic}
    (hrun : Traffic.run {} moves = some x) :
    x.taken.Nodup ∧ x.taken.Disjoint x.dropped ∧
    (∀ s, ∀ l ∈ x.sent s, l ∈ x.taken ∨ l ∈ x.dropped ∨ l ∈ x.mailbox.queue) ∧
    (x.owner = .taking → x.dropped = []) ∧
    (∀ s, x.taken.filter (·.sender = s) <+: x.sent s) ∧
    (x.owner = .done → (∀ s, x.posting s = .idle) → x.mailbox.queue = []) := by
  have h := start_orderly.run hrun
  have hnodup := h.entered_nodup
  rw [entered, List.append_assoc, List.nodup_append'] at hnodup
  obtain ⟨htaken, -, hapart⟩ := hnodup
  refine ⟨htaken, ?_, ?_, fun ho => (h.taking ho).1, h.taken_prefix, ?_⟩
  · exact fun l hl hd => hapart hl (List.mem_append_left _ hd)
  · intro s l hl
    simpa [entered, or_assoc] using h.mem_entered hl
  · intro hdone hidle
    by_contra hq
    obtain ⟨s, hs⟩ := h.owed hdone hq
    exact hs (hidle s)

/-- Two tasks post. The owner takes a message and closes the mailbox while the second message of
task 1 is in the queue, but has not been looked after. -/
theorem messages_delivered_race :
    ∃ x, Traffic.run {}
        [.post 1 .nil, .test 1, .post 2 .nil, .take, .post 1 (.bool true), .shut, .test 2,
         .drain 2, .clear, .drain 2, .test 1, .clear, .drain 1] = some x ∧
      x.owner = .done ∧ (∀ s, x.posting s = .idle) ∧ x.taken.length = 1 ∧ x.dropped.length = 2 ∧
      x.taken.Disjoint x.dropped ∧ x.taken.filter (·.sender = 1) <+: x.sent 1 ∧
      x.mailbox.queue = [] := by
  obtain ⟨x, hrun, hdone, hidle, htaken, hdropped⟩ : ∃ x, Traffic.run {}
        [.post 1 .nil, .test 1, .post 2 .nil, .take, .post 1 (.bool true), .shut, .test 2,
         .drain 2, .clear, .drain 2, .test 1, .clear, .drain 1] = some x ∧
      x.owner = .done ∧ (∀ s, x.posting s = .idle) ∧ x.taken.length = 1 ∧
      x.dropped.length = 2 := by
    refine ⟨_, rfl, rfl, fun s => ?_, rfl, rfl⟩
    rcases s with _ | _ | _ | s <;> rfl
  obtain ⟨-, hapart, -, -, hprefix, hempty⟩ := messages_delivered hrun
  exact ⟨x, hrun, hdone, hidle, htaken, hdropped, hapart, hprefix 1, hempty hdone hidle⟩

end Traffic
end ObjectMachine
