import ObjectMachine.Proofs.Classes.Values
import ObjectMachine.Proofs.Vm.Ordinary

/-!
# ObjectMachine.Proofs.Machine.Unwinding

What becomes of a failure on its way through what waits for a value.

* `Vm.raised` — the value that a failure raises.
* `Machine.Hands` — a later stage of a failure.
* `Machine.raising_step`, `Machine.raising_run` — all continuations hand a failure on, but for those
  that tell success from failure; the value is made by the first that needs one.
* `Panicless` — the actions that raise no value. The instances follow the definitions.
* `Machine.Origin.panic_iff` — a value is raised by one native function only.
-/

namespace ObjectMachine

open ObjectMachine.Action

/-! ## Unwinding -/

namespace Vm

/-- The value that a failure raises, and the heap that has it. -/
def raised (vm : Vm) : Error → Ref × Heap
  | .panic v => (v, vm.heap)
  | e => vm.heap.place ⟨Builtin.error.ref vm.heap.id, .error ⟨e.message, none, vm.backtrace⟩⟩

/-- The value of a failure has a text, if texts are asked for. -/
def Tells (vm : Vm) (e : Error) : Prop :=
  vm.config.trace.vm = true → Answered ((vm.raised e).2.display (vm.raised e).1)

variable {vm u : Vm} {e : Error}

theorem raised_congr (hheap : u.heap = vm.heap) (hframes : u.frames = vm.frames) (e : Error) :
    u.raised e = vm.raised e := by
  cases e <;> simp only [raised, backtrace, hheap, hframes]

theorem raisedValue_run (vm : Vm) (e : Error) :
    raisedValue e vm = .ok (vm.raised e).1 { vm with heap := (vm.raised e).2 } := by
  cases e <;> first | rfl | exact new_eq vm .error _

theorem traceUnwinding_run {v : Ref} (h : vm.config.trace.vm = true → Answered (vm.heap.display v))
    (floor : Nat) :
    ∃ u, Machine.traceUnwinding v floor vm = .ok () u ∧ u.heap = vm.heap ∧
      u.config = vm.config := by
  unfold Machine.traceUnwinding
  show ∃ u, (ite (vm.config.trace.vm = true) _ _ : Action Unit) vm = .ok () u ∧ _
  split
  · next htrace =>
    obtain ⟨text, htext⟩ := h htrace
    have hdisplay : display v vm = .ok text vm := by
      unfold display Action.ofHeap
      simp only [htext]
    rw [bind_ok hdisplay]
    refine ⟨_, rfl, ?_, ?_⟩ <;> dsimp only <;> split <;> rfl
  · exact ⟨vm, rfl, rfl, rfl⟩

/-- A loop is over. -/
theorem unwind_eq (h : vm.Tells e) (floor base : Nat) :
    ∃ u, Machine.unwind e floor base vm = .ok (vm.raised e).1 u ∧ u.heap = (vm.raised e).2 ∧
      u.config = vm.config := by
  obtain ⟨u, hrun, hheap, hconfig⟩ :=
    @traceUnwinding_run { vm with heap := (vm.raised e).2 } _ h floor
  have hannounce : Machine.announce e floor vm = .ok (vm.raised e).1 u := by
    unfold Machine.announce
    rw [bind_ok (raisedValue_run vm e), bind_ok hrun]
    rfl
  rw [Machine.unwind_run, hannounce]
  exact ⟨_, rfl, hheap, hconfig⟩

end Vm

namespace Machine

/-- A later stage of a failure: its value is made, or will be made in the same way. -/
structure Hands (vm : Vm) (e : Error) (u : Vm) (e' : Error) : Prop where
  raised : u.raised e' = vm.raised e
  config : u.config = vm.config
  error : e' = e ∨ e' = .panic (vm.raised e).1

namespace Hands

variable {vm u v : Vm} {e e' e'' : Error}

theorem refl (vm : Vm) (e : Error) : Hands vm e vm e := ⟨rfl, rfl, .inl rfl⟩

theorem made (hheap : u.heap = (vm.raised e).2) (hconfig : u.config = vm.config) :
    Hands vm e u (.panic (vm.raised e).1) where
  raised := by rw [Vm.raised, hheap]
  config := hconfig
  error := .inr rfl

theorem trans (h : Hands vm e u e') (h' : Hands u e' v e'') : Hands vm e v e'' where
  raised := h'.raised.trans h.raised
  config := h'.config.trans h.config
  error := by
    rcases h'.error with rfl | rfl
    · exact h.error
    · exact .inr (by rw [h.raised])

theorem tells (h : Hands vm e u e') (ht : vm.Tells e) : u.Tells e' := by
  unfold Vm.Tells
  rw [h.raised, h.config]
  exact ht

end Hands

variable {vm : Vm} {e : Error} {k : Kont} {ks : List Kont}

/-- Everything that waits hands a failure on, unless it tells success from failure. -/
theorem raising_step (ht : vm.Tells e) (hk : k ≠ .attempt) (ks : List Kont) :
    ∃ u e', step ⟨vm, k :: ks, .raising e⟩ = .next ⟨u, ks, .raising e'⟩ ∧ Hands vm e u e' ∧
      (k = .guard → e' = .panic (vm.raised e).1) := by
  cases k with
  | loop floor base =>
    obtain ⟨u, hrun, hheap, hconfig⟩ := Vm.unwind_eq ht floor base
    exact ⟨u, _, continueWith_ok hrun, .made hheap hconfig, nofun⟩
  | operands n => exact ⟨vm, e, rfl, .refl vm e, nofun⟩
  | fill obj =>
    exact ⟨{ vm with temps := vm.temps.tail }, e, rfl, ⟨Vm.raised_congr rfl rfl e, rfl, .inl rfl⟩,
      nofun⟩
  | attempt => exact absurd rfl hk
  | guard =>
    exact ⟨{ vm with heap := (vm.raised e).2 }, _, continueWith_ok (Vm.raisedValue_run vm e),
      .made rfl rfl, fun _ => rfl⟩

/-- So does everything together, one after the other. -/
theorem raising_run (ht : vm.Tells e) (hks : .attempt ∉ ks) {n : Nat} (hn : n ≤ ks.length) :
    ∃ u e', run n ⟨vm, ks, .raising e⟩ = .next ⟨u, ks.drop n, .raising e'⟩ ∧ Hands vm e u e' ∧
      (.guard ∈ ks.take n → e' = .panic (vm.raised e).1) := by
  induction n generalizing vm e ks with
  | zero => exact ⟨vm, e, rfl, .refl vm e, by simp⟩
  | succ n ih =>
    cases ks with
    | nil => cases hn
    | cons k ks =>
      obtain ⟨hk, hks⟩ := List.ne_and_not_mem_of_not_mem_cons hks
      obtain ⟨u, e', hstep, hands, hguard⟩ := raising_step ht (Ne.symm hk) ks
      obtain ⟨u', e'', hrun, hands', hguard'⟩ :=
        ih (hands.tells ht) hks (Nat.le_of_succ_le_succ hn)
      refine ⟨u', e'', ?_, hands.trans hands', fun hmem => ?_⟩
      · rw [run, hstep]
        exact hrun
      · rcases List.mem_cons.mp hmem with rfl | hmem
        · rcases hands'.error with rfl | rfl
          · exact hguard rfl
          · rw [hands.raised]
        · rw [hguard' hmem, hands.raised]

theorem run_add {m m' : Machine} {n : Nat} (h : m.run n = .next m') (k : Nat) :
    m.run (n + k) = m'.run k := by
  induction n generalizing m with
  | zero =>
    cases h
    rw [Nat.zero_add]
  | succ n ih =>
    rw [Nat.add_right_comm, run]
    rw [run] at h
    cases hstep : m.step with
    | next m₁ =>
      rw [hstep] at h
      exact ih h
    | _ =>
      rw [hstep] at h
      cases h

/-- At the end of what waits stands the value of the failure. -/
theorem raising_done (ht : vm.Tells e) (hks : .attempt ∉ ks) (hguard : .guard ∈ ks) :
    ∃ u, run (ks.length + 1) ⟨vm, ks, .raising e⟩ = .done u (.error (.panic (vm.raised e).1)) ∧
      u.heap = (vm.raised e).2 := by
  obtain ⟨u, e', hrun, hands, hpanic⟩ := raising_run ht hks (Nat.le_refl _)
  rw [List.take_length] at hpanic
  obtain rfl := hpanic hguard
  rw [List.drop_length] at hrun
  exact ⟨u, run_add hrun 1, congrArg Prod.snd hands.raised⟩

end Machine

/-! ## Raised values -/

/-- An action that raises no value. -/
class Panicless {α : Type} (a : Action α) : Prop where
  ne_panic : ∀ {vm v vm'}, a vm ≠ .error (.raised (.panic v)) vm'

namespace Panicless

variable {α β : Type}

instance ordinary (a : Action α) [ha : Ordinary a] : Panicless a :=
  ⟨fun {_ v _} h => (ha.raises h).ne_panic v rfl⟩

instance bind (a : Action α) (f : α → Action β) [ha : Panicless a] [hf : ∀ x, Panicless (f x)] :
    Panicless (a >>= f) := by
  constructor
  intro vm v vm' h
  rcases bind_eq_error.mp h with h | ⟨x, u, -, h⟩
  · exact ha.ne_panic h
  · exact (hf x).ne_panic h

instance overflow (n : Nat) : Panicless (Action.raise (.stackOverflow n) : Action α) :=
  ⟨by rintro _ _ _ ⟨⟩⟩

instance overflow_bind (n : Nat) (f : α → Action β) :
    Panicless ((Action.raise (.stackOverflow n) : Action α) >>= f) := overflow n

theorem get_bind {f : Vm → Action α} [h : ∀ vm, Panicless (f vm)] : Panicless (get >>= f) :=
  ⟨fun {vm _ _} hrun => (h vm).ne_panic hrun⟩

instance activate (method : Ref) (args : List Ref) : Panicless (Vm.activate method args) := by
  rw [Vm.activate_eq]
  refine @get_bind _ _ fun vm => ?_
  split <;> infer_instance

instance enter (method : Ref) (args : List Ref) : Panicless (Vm.enter method args) := by
  unfold Vm.enter; infer_instance

instance enterLoop (method : Ref) (args : List Ref) : Panicless (Vm.enterLoop method args) := by
  unfold Vm.enterLoop
  refine @get_bind _ _ fun vm => ?_
  dsimp only
  split <;> infer_instance

instance execute (op : Op) (i : Instr) : Panicless (Vm.execute op i) := by
  by_cases hop : op = .call
  · subst hop
    refine @bind _ _ _ _ _ fun operands => ?_
    cases operands with
    | nil => infer_instance
    | cons callee args =>
      refine @bind _ _ _ _ _ fun bytecode => ?_
      split <;> infer_instance
  · have := Ordinary.execute hop i
    infer_instance

instance perform : Panicless Vm.perform := by
  unfold Vm.perform
  refine @bind _ _ _ _ _ fun next => ?_
  cases next with
  | none => infer_instance
  | some i =>
    dsimp only
    split <;> infer_instance

instance stepLoop (floor : Nat) : Panicless (Vm.stepLoop floor) := by
  unfold Vm.stepLoop Vm.performIn
  refine @bind _ _ _ _ _ fun _ => @bind _ _ _ _ _ fun flow => ?_
  cases flow <;> infer_instance

end Panicless

/-- The machine is about to call the native function that raises its argument, with `v`. -/
def Machine.Panics (m : Machine) (v : Ref) : Prop :=
  ∃ callee args b, m.mode = .calling callee args ∧
    Vm.require .call Slots.call callee m.vm = .ok .method m.vm ∧
    m.vm.heap.payload callee = .ok (.method b) ∧ b.body = .native .raise ∧
    b.receiver.toList ++ args = [v]

namespace Machine

variable {m m' : Machine} {e : Error} {v : Ref}

theorem Panics.call {callee : Ref} {args : List Ref} (hmode : m.mode = .calling callee args)
    (h : m.Panics v) : Vm.call callee args m.vm = .error (.raised (.panic v)) m.vm := by
  obtain ⟨callee', args', b, hmode', hslot, hpayload, hbody, hargs⟩ := h
  cases hmode.symm.trans hmode'
  unfold Vm.call
  rw [bind_ok hslot]
  dsimp only
  unfold Vm.callMethod
  rw [bind_ok (Vm.payload_eq_ok.mpr ⟨hpayload, rfl⟩)]
  dsimp only
  rw [hbody, hargs]
  rfl

/-- Only a call of that function raises a value. -/
theorem Panics.of_call {callee : Ref} {args : List Ref} {u : Vm}
    (hmode : m.mode = .calling callee args)
    (h : Vm.call callee args m.vm = .error (.raised (.panic v)) u) : m.Panics v := by
  unfold Vm.call at h
  rcases bind_eq_error.mp h with h | ⟨f, u', hslot, h⟩
  · exact absurd h Panicless.ne_panic
  obtain rfl := Reads.of_ok hslot
  cases f with
  | cls => exact absurd h (Panicless.ne_panic (a := Vm.construct callee args))
  | arguments => exact absurd h Panicless.ne_panic
  | method =>
    dsimp only at h
    unfold Vm.callMethod at h
    rcases bind_eq_error.mp h with h | ⟨p, u', hp, h⟩
    · exact absurd h Panicless.ne_panic
    obtain ⟨hpayload, rfl⟩ := Vm.payload_eq_ok.mp hp
    cases p with
    | method b =>
      dsimp only at h
      cases hbody : b.body with
      | native f =>
        rw [hbody] at h
        by_cases hf : f = .raise
        · subst hf
          refine ⟨callee, args, b, hmode, hslot, hpayload, hbody, ?_⟩
          generalize b.receiver.toList ++ args = values at h
          rcases values with _ | ⟨x, _ | ⟨y, rest⟩⟩ <;> cases h
          rfl
        · exact absurd rfl (((Ordinary.runNative hf _).raises h).ne_panic v)
      | _ =>
        rw [hbody] at h
        exact absurd h Panicless.ne_panic
    | _ => exact absurd h Panicless.ne_panic

/-- An error is a raised value if that function is called, and only then. -/
theorem Origin.panic_iff (h : m.Origin e m') : e = .panic v ↔ m.Panics v := by
  constructor
  · rintro rfl
    cases h with
    | instruction _ _ hrun => exact absurd hrun Panicless.ne_panic
    | call hmode hrun => exact .of_call hmode hrun
    | construct _ hrun => exact absurd hrun Panicless.ne_panic
    | answer _ hrun => exact absurd hrun Panicless.ne_panic
  · intro hpanics
    obtain ⟨callee, args, b, hmode, -⟩ := id hpanics
    cases h with
    | instruction hmode' => cases hmode.symm.trans hmode'
    | call hmode' hrun =>
      cases (hpanics.call hmode').symm.trans hrun
      rfl
    | construct hmode' => cases hmode.symm.trans hmode'
    | answer hmode' => cases hmode.symm.trans hmode'

end Machine

end ObjectMachine
