/-!
# ObjectMachine.Mailbox

The queue of messages to one task.

Several tasks may post at a time while the owner takes or closes. What each of them does to the
queue is made of four indivisible steps: a message is added at the end, the oldest one is removed,
the mailbox is marked as closed, and the mark is looked at.

* `Mailbox.enqueue`, `Mailbox.take?`, `Mailbox.shut` — the indivisible changes.
* `Mailbox.drain` — removes the messages one after the other; answers how many there were.
* `Mailbox.post` — adds a message. If the mailbox turns out to be closed, the messages that are
  there, this one among them, are dropped.
* `Mailbox.close` — drops what is there and what comes; answers how many were dropped.
-/

namespace ObjectMachine

structure Mailbox (α : Type) where
  /-- The messages, oldest first. -/
  queue : List α := []
  closed : Bool := false
deriving Inhabited

namespace Mailbox

variable {α : Type}

/-- Adds a message at the end. -/
def enqueue (b : Mailbox α) (m : α) : Mailbox α :=
  { b with queue := b.queue ++ [m] }

/-- Removes the oldest message. -/
def take? (b : Mailbox α) : Option (α × Mailbox α) :=
  match b.queue with
  | [] => none
  | m :: rest => some (m, { b with queue := rest })

/-- Marks the mailbox as closed. -/
def shut (b : Mailbox α) : Mailbox α :=
  { b with closed := true }

def drain (b : Mailbox α) : Nat × Mailbox α :=
  (b.queue.length, { b with queue := [] })

def post (b : Mailbox α) (m : α) : Mailbox α :=
  let b := b.enqueue m
  if b.closed then b.drain.2 else b

def close (b : Mailbox α) : Nat × Mailbox α :=
  b.shut.drain

def size (b : Mailbox α) : Nat :=
  b.queue.length

theorem take?_eq_none {b : Mailbox α} : b.take? = none ↔ b.queue = [] := by
  unfold take?
  cases b.queue <;> simp

theorem take?_eq_some {b b' : Mailbox α} {m : α} :
    b.take? = some (m, b') ↔ b.queue = m :: b'.queue ∧ b'.closed = b.closed := by
  obtain ⟨queue, closed⟩ := b
  obtain ⟨queue', closed'⟩ := b'
  cases queue with
  | nil => simp [take?]
  | cons n rest => simp [take?, and_assoc, eq_comm]

end Mailbox
end ObjectMachine
