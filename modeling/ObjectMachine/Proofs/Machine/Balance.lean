import ObjectMachine.Machine
import ObjectMachine.Proofs.Machine.Loops
import Mathlib.Logic.Relation

/-!
# ObjectMachine.Proofs.Machine.Balance

Calls are balanced and never touch their caller.

* `Context.Balanced` — what is waiting for a value can be led back to where the call began.
* `Machine.Balanced.step`, `Machine.Balanced.reaches` — every step keeps that, and so does a run.
* `Machine.calls_balanced` — a call that ends leaves the interpreter as it was, whether it returns or
  fails, whatever the state, the callee, the arguments and the bytecode are; while it runs, no
  instruction looks at or changes the operands below its frame, and no operand is looked for outside
  of the operand stack.
-/

namespace ObjectMachine

open ObjectMachine.Action

/-- What is waiting for a value, the innermost first, can be led back to `c₀`. -/
inductive Context.Balanced (c₀ : Context) : List Kont → Context → Prop where
  | done : c₀.Balanced [] c₀
  | guard {ks : List Kont} {c : Context} : c₀.Balanced ks c → c₀.Balanced (.guard :: ks) c
  | attempt {ks : List Kont} {c : Context} : c₀.Balanced ks c → c₀.Balanced (.attempt :: ks) c
  | fill {ks : List Kont} {c : Context} {obj temp : Ref} :
      c₀.Balanced ks c → c₀.Balanced (.fill obj :: ks) { c with temps := temp :: c.temps }
  | operands {ks : List Kont} {c : Context} {floor base n : Nat} :
      c.HasOperands n → c₀.Balanced (.loop floor base :: ks) c →
      c₀.Balanced (.operands n :: .loop floor base :: ks) c
  | loop {ks : List Kont} {c d : Context} {inner : List ActiveFrame} :
      d.Within inner c → c₀.Balanced ks d →
      c₀.Balanced (.loop d.frames.size d.stack.size :: ks) c

theorem Context.Balanced.of_fill {c₀ c : Context} {ks : List Kont} {obj : Ref}
    (h : c₀.Balanced (.fill obj :: ks) c) : c₀.Balanced ks { c with temps := c.temps.tail } := by
  cases h with
  | fill h => exact h

theorem Context.Balanced.of_loop {c₀ c : Context} {ks : List Kont} {floor base : Nat}
    (h : c₀.Balanced (.loop floor base :: ks) c) :
    ∃ d inner, d.Within inner c ∧ c₀.Balanced ks d ∧ floor = d.frames.size ∧ base = d.stack.size := by
  cases h with
  | loop hw h => exact ⟨_, _, hw, h, rfl, rfl⟩

/-- The operands and frames that were there at the beginning are there, below all others. -/
theorem Context.Balanced.extends {c₀ c : Context} {ks : List Kont} (h : c₀.Balanced ks c) :
    c₀.stack.toList <+: c.stack.toList ∧ c₀.frames.toList <+: c.frames.toList ∧
      c₀.temps <:+ c.temps := by
  induction h with
  | done => exact ⟨List.prefix_rfl, List.prefix_rfl, List.suffix_rfl⟩
  | guard _ ih => exact ih
  | attempt _ ih => exact ih
  | fill _ ih => exact ⟨ih.1, ih.2.1, ih.2.2.trans (List.suffix_cons _ _)⟩
  | operands _ _ ih => exact ih
  | loop hw _ ih =>
    refine ⟨ih.1.trans hw.stack, ih.2.1.trans ?_, ?_⟩
    · rw [hw.frames]
      exact List.prefix_append _ _
    · rw [hw.rest]
      exact ih.2.2

/-- The state of a machine can be led back to `c₀`. -/
structure Machine.Balanced (c₀ : Context) (m : Machine) : Prop where
  konts : c₀.Balanced m.konts m.vm.context
  running : m.mode = .running → ∃ floor base ks, m.konts = .loop floor base :: ks

/-- The same of what a step leads to. -/
def Outcome.Balanced (c₀ : Context) : Outcome → Prop
  | .next m | .blocked m _ => m.Balanced c₀
  | .done vm _ => vm.context = c₀
  | .fatal _ f => ∀ n height, f ≠ .operandRange n height
  | .crashed _ => True

namespace Machine

variable {c₀ : Context}

section ContinueWith

variable {α : Type} {a : Action α} {vm : Vm} {konts : List Kont} {f : α → Vm → Machine}

theorem continueWith_ok {x : α} {vm' : Vm} (h : a vm = .ok x vm') :
    continueWith a vm konts f = .next (f x vm') := by
  unfold continueWith
  rw [h]

/-- A failure goes to what is waiting, unless it ends the run. -/
theorem continueWith_error {e : Stop} {vm' : Vm} (h : a vm = .error e vm')
    (hb : c₀.Balanced konts vm'.context) (he : ∀ n height, e ≠ .fatal (.operandRange n height)) :
    (continueWith a vm konts f).Balanced c₀ := by
  unfold continueWith
  rw [h]
  cases e with
  | raised e => exact ⟨hb, nofun⟩
  | fatal e => exact fun n height heq => he n height (congrArg _ heq)
  | crashed => trivial

/-- Going on after a steady action. -/
theorem continueWith_steady [Steady a] (hb : c₀.Balanced konts vm.context)
    (hf : ∀ x vm', vm'.context = vm.context → (f x vm').Balanced c₀) :
    (continueWith a vm konts f).Balanced c₀ := by
  rcases Steady.cases a vm with ⟨e, vm', h, hctx, he⟩ | ⟨x, vm', h, hctx⟩
  · exact continueWith_error h (hctx ▸ hb) he
  · rw [continueWith_ok h]
    exact hf x vm' hctx

end ContinueWith

/-! ## Steps -/

/-- What a call is answered with, other than a frame. -/
theorem ofReply_balanced {konts : List Kont} {vm : Vm} (hb : c₀.Balanced konts vm.context)
    {reply : Reply} (hr : ∀ floor base, reply ≠ .entered floor base) :
    (ofReply konts reply vm).Balanced c₀ := by
  cases reply with
  | value r => exact ⟨hb, nofun⟩
  | call callee args => exact ⟨hb, nofun⟩
  | attempt callee args => exact ⟨.attempt hb, nofun⟩
  | construct cls args => exact ⟨hb, nofun⟩
  | fill obj init args => exact ⟨.fill hb, nofun⟩
  | entered floor base => exact absurd rfl (hr floor base)
  | wait request => exact ⟨hb, nofun⟩

theorem calling_balanced {konts : List Kont} {vm : Vm} (hb : c₀.Balanced konts vm.context)
    (callee : Ref) (args : List Ref) :
    (continueWith (Vm.call callee args) vm konts (ofReply konts)).Balanced c₀ := by
  rcases Vm.call_ends callee args vm with ⟨e, vm', h, hctx, he⟩ | ⟨h, hctx, hr⟩ | @⟨f, vm', h, hctx⟩
  · exact continueWith_error h (hctx ▸ hb) he
  · rw [continueWith_ok h]
    exact ofReply_balanced (hctx ▸ hb) hr
  · rw [continueWith_ok h]
    refine ⟨?_, fun _ => ⟨_, _, _, rfl⟩⟩
    have hw := Context.Within.of_pushLoop (d := vm.context) f
    rw [← hctx] at hw
    exact .loop hw hb

theorem constructing_balanced {konts : List Kont} {vm : Vm} (hb : c₀.Balanced konts vm.context)
    (cls : Ref) (args : List Ref) :
    (continueWith (Vm.construct cls args) vm konts (ofReply konts)).Balanced c₀ := by
  rcases Settled.cases (Vm.construct cls args) vm with ⟨e, vm', h, hctx, he⟩ | ⟨reply, vm', h, hctx, hr⟩
  · exact continueWith_error h (hctx ▸ hb) he
  · rw [continueWith_ok h]
    exact ofReply_balanced (hctx ▸ hb) hr

theorem replace_balanced {konts : List Kont} {vm : Vm} {n : Nat}
    (hb : c₀.Balanced (.operands n :: konts) vm.context) (v : Ref) :
    (continueWith (Vm.replace n v) vm konts fun _ vm => ⟨vm, konts, .running⟩).Balanced c₀ := by
  cases hb with
  | operands hn hb =>
    obtain ⟨d, inner, hw, hd, rfl, rfl⟩ := hb.of_loop
    rcases Vm.replace_ends hw hn v with ⟨e, vm', h, ⟨inner', hw'⟩, he⟩ | ⟨vm', h, inner', hw'⟩
    · exact continueWith_error h (.loop hw' hd) he
    · rw [continueWith_ok h]
      exact ⟨.loop hw' hd, fun _ => ⟨_, _, _, rfl⟩⟩

theorem returning_balanced {konts : List Kont} {vm : Vm} (hb : c₀.Balanced konts vm.context)
    (v : Ref) : (stepReturning v vm konts).Balanced c₀ := by
  cases konts with
  | nil =>
    cases hb
    exact rfl
  | cons k konts =>
    cases k with
    | loop floor base => exact fun n height => nofun
    | operands n => exact replace_balanced hb v
    | fill obj => exact ⟨hb.of_fill, nofun⟩
    | attempt =>
      cases hb with
      | attempt hb => exact continueWith_steady hb fun r vm' hctx => ⟨hctx ▸ hb, nofun⟩
    | guard =>
      cases hb with
      | guard hb => exact ⟨hb, nofun⟩

end Machine

instance Quiet.traceUnwinding (v : Ref) (floor : Nat) : Quiet (Machine.traceUnwinding v floor) := by
  unfold Machine.traceUnwinding
  refine get_bind (fun _ _ _ => rfl) fun vm => ?_
  split <;> infer_instance

instance Quiet.answerValue (a : Machine.Answer) : Quiet (Machine.answerValue a) := by
  cases a <;> unfold Machine.answerValue <;> infer_instance

/-- An action that raises nothing. -/
class Unraised {α : Type} (a : Action α) : Prop where
  ne_raised : ∀ vm e vm', a vm ≠ .error (.raised e) vm'

namespace Unraised

variable {α β : Type}

instance return_ (x : α) : Unraised (pure x : Action α) := ⟨fun _ _ _ => nofun⟩

instance changing (f : Vm → Vm) : Unraised (modify f : Action Unit) := ⟨fun _ _ _ => nofun⟩

instance bind (a : Action α) (f : α → Action β) [ha : Unraised a] [hf : ∀ x, Unraised (f x)] :
    Unraised (a >>= f) := by
  constructor
  intro vm e vm''
  cases h : a vm with
  | ok x vm' => rw [bind_ok h]; exact (hf x).ne_raised vm' e vm''
  | error s vm' =>
    rw [bind_error h]
    intro he
    cases he
    exact ha.ne_raised vm e vm'' h

theorem get_bind {f : Vm → Action α} [h : ∀ vm, Unraised (f vm)] : Unraised (get >>= f) :=
  ⟨fun vm => (h vm).ne_raised vm⟩

instance ofHeap (f : Heap → Except Fatal α) : Unraised (Action.ofHeap f) := by
  constructor
  intro vm e vm'
  unfold Action.ofHeap
  cases f vm.heap <;> nofun

instance alloc (cls : Ref) (p : Payload) : Unraised (Vm.alloc cls p) := by
  constructor
  intro vm e vm'
  unfold Vm.alloc
  cases vm.heap.checkOwn cls <;> nofun

/-- What a failure raises is made without another one. -/
instance raisedValue (e : Error) : Unraised (Vm.raisedValue e) := by
  unfold Vm.raisedValue
  split
  · infer_instance
  · exact ⟨fun vm => (alloc _ _).ne_raised vm⟩

instance traceUnwinding (v : Ref) (floor : Nat) : Unraised (Machine.traceUnwinding v floor) := by
  unfold Machine.traceUnwinding Vm.display Vm.trace
  refine @get_bind _ _ fun vm => ?_
  split <;> infer_instance

end Unraised

/-- Makes the value that is raised and writes it on the trace. -/
def Machine.announce (e : Error) (floor : Nat) : Action Ref := do
  let v ← Vm.raisedValue e
  traceUnwinding v floor
  return v

/-- Without the frames and operands of a loop. -/
def Vm.cut (floor base : Nat) (vm : Vm) : Vm :=
  { vm with
    frames := vm.frames.shrink floor
    stack := vm.stack.shrink base
    loops := vm.loops - 1 }

instance Quiet.announce (e : Error) (floor : Nat) : Quiet (Machine.announce e floor) := by
  unfold Machine.announce; infer_instance

instance Unraised.announce (e : Error) (floor : Nat) : Unraised (Machine.announce e floor) := by
  unfold Machine.announce; infer_instance

theorem Machine.unwind_run (e : Error) (floor base : Nat) (vm : Vm) :
    unwind e floor base vm =
      match announce e floor vm with
      | .ok v vm => .ok v (vm.cut floor base)
      | .error stop vm => .error stop vm := by
  have heq : unwind e floor base = announce e floor >>= fun v => do
      modify (Vm.cut floor base)
      return v := by
    simp only [unwind, announce, bind_assoc, pure_bind]
    rfl
  rw [heq, bind_run]
  cases announce e floor vm <;> rfl

namespace Machine

variable {c₀ : Context}

/-- A failure ends a loop and takes everything of it away. -/
theorem unwind_balanced {konts : List Kont} {vm : Vm} {floor base : Nat}
    (hb : c₀.Balanced (.loop floor base :: konts) vm.context) (e : Error) :
    (continueWith (unwind e floor base) vm konts fun v vm =>
      ⟨vm, konts, .raising (.panic v)⟩).Balanced c₀ := by
  obtain ⟨d, inner, hw, hd, rfl, rfl⟩ := hb.of_loop
  rcases Steady.cases (announce e d.frames.size) vm with ⟨s, vm', h, hctx, hs⟩ | ⟨v, vm', h, hctx⟩
  · have h' : unwind e d.frames.size d.stack.size vm = .error s vm' := by rw [unwind_run, h]
    unfold continueWith
    rw [h']
    cases s with
    | raised e' => exact absurd h (Unraised.ne_raised vm e' vm')
    | fatal f => exact fun n height heq => hs n height (congrArg _ heq)
    | crashed => trivial
  · rw [continueWith_ok (by rw [unwind_run, h])]
    refine ⟨?_, nofun⟩
    have hunwound := hw.unwind
    rw [← hctx] at hunwound
    show c₀.Balanced konts
      { vm'.context with
        stack := vm'.context.stack.shrink d.stack.size
        frames := vm'.context.frames.shrink d.frames.size
        loops := vm'.context.loops - 1 }
    rw [hunwound]
    exact hd

theorem raising_balanced {konts : List Kont} {vm : Vm} (hb : c₀.Balanced konts vm.context)
    (e : Error) : (stepRaising e vm konts).Balanced c₀ := by
  cases konts with
  | nil =>
    cases hb
    exact rfl
  | cons k konts =>
    cases k with
    | loop floor base => exact unwind_balanced hb e
    | operands n =>
      cases hb with
      | operands _ hb => exact ⟨hb, nofun⟩
    | fill obj => exact ⟨hb.of_fill, nofun⟩
    | attempt =>
      cases hb with
      | attempt hb => exact continueWith_steady hb fun r vm' hctx => ⟨hctx ▸ hb, nofun⟩
    | guard =>
      cases hb with
      | guard hb => exact continueWith_steady hb fun r vm' hctx => ⟨hctx ▸ hb, nofun⟩

theorem running_balanced {konts : List Kont} {vm : Vm} (hb : c₀.Balanced konts vm.context) :
    (stepRunning vm konts).Balanced c₀ := by
  cases konts with
  | nil => exact fun n height => nofun
  | cons k konts =>
    cases k with
    | loop floor base =>
      obtain ⟨d, inner, hw, hd, rfl, rfl⟩ := hb.of_loop
      obtain ⟨init, f, low, high, rfl, hs, hlow⟩ := hw.split
      obtain ⟨hends, -⟩ := Vm.stepLoop_ends hw hs hlow
      dsimp only [stepRunning]
      cases h : Vm.stepLoop d.frames.size vm with
      | error e vm' =>
        rw [h] at hends
        obtain ⟨⟨inner', hw'⟩, he⟩ := hends
        exact continueWith_error h (.loop hw' hd) he
      | ok flow vm' =>
        rw [h] at hends
        rw [continueWith_ok h]
        cases flow with
        | next =>
          obtain ⟨inner', hw'⟩ := hends
          exact ⟨.loop hw' hd, fun _ => ⟨_, _, _, rfl⟩⟩
        | leave v =>
          have hctx : vm'.context = d := hends
          exact ⟨hctx ▸ hd, nofun⟩
        | call callee args n =>
          obtain ⟨⟨inner', hw'⟩, hn⟩ := hends
          exact ⟨.operands hn (.loop hw' hd), nofun⟩
        | wait request n =>
          obtain ⟨⟨inner', hw'⟩, hn⟩ := hends
          exact ⟨.operands hn (.loop hw' hd), nofun⟩
    | operands n => exact fun n height => nofun
    | fill obj => exact fun n height => nofun
    | attempt => exact fun n height => nofun
    | guard => exact fun n height => nofun

theorem Balanced.step {m : Machine} (h : m.Balanced c₀) : m.step.Balanced c₀ := by
  obtain ⟨vm, konts, mode⟩ := m
  cases mode with
  | running => exact running_balanced h.konts
  | calling callee args => exact calling_balanced h.konts callee args
  | constructing cls args => exact constructing_balanced h.konts cls args
  | returning v => exact returning_balanced h.konts v
  | raising e => exact raising_balanced h.konts e
  | waiting request => exact h

theorem Balanced.resume {m : Machine} (h : m.Balanced c₀) (a : Answer) :
    (m.resume a).Balanced c₀ :=
  continueWith_steady h.konts fun _ _ hctx => ⟨hctx ▸ h.konts, nofun⟩

end Machine

/-! ## Whole calls -/

/-- The ways to begin a call. -/
inductive Entry where
  | call (callee : Ref) (args : List Ref)
  /-- A call whose failure is told as a raised value. -/
  | invoke (callee : Ref) (args : List Ref)
  /-- A call of a method that has bytecode. -/
  | bytecode (method : Ref) (args : List Ref)
  | instantiate (cls : Ref) (args : List Ref)

/-- The beginning of a call. -/
def Entry.begin (vm : Vm) : Entry → Outcome
  | .call callee args => .next ⟨vm, [], .calling callee args⟩
  | .invoke callee args => .next ⟨vm, [.guard], .calling callee args⟩
  | .bytecode method args =>
    Machine.continueWith (Vm.enterLoop method args) vm [] fun (floor, base) vm =>
      ⟨vm, [.loop floor base], .running⟩
  | .instantiate cls args => .next ⟨vm, [], .constructing cls args⟩

/-- How a call goes on: with a step, or with any answer to its request. -/
inductive Outcome.Leads : Outcome → Outcome → Prop where
  | step (m : Machine) : Leads (.next m) m.step
  | answer (m : Machine) (request : Request) (a : Machine.Answer) :
      Leads (.blocked m request) (m.resume a)

/-- What a call comes to. -/
def Outcome.Reaches : Outcome → Outcome → Prop :=
  Relation.ReflTransGen Outcome.Leads

theorem Outcome.reaches_run (m : Machine) (fuel : Nat) :
    (Outcome.next m).Reaches (m.run fuel) := by
  induction fuel generalizing m with
  | zero => exact .refl
  | succ fuel ih =>
    have hl := Leads.step m
    unfold Machine.run
    cases h : m.step with
    | next m' =>
      rw [h] at hl
      exact .head hl (ih m')
    | _ =>
      rw [h] at hl
      exact .single hl

theorem Entry.begin_balanced (vm : Vm) (entry : Entry) :
    (entry.begin vm).Balanced vm.context := by
  cases entry with
  | call callee args => exact ⟨.done, nofun⟩
  | invoke callee args => exact ⟨.guard .done, nofun⟩
  | instantiate cls args => exact ⟨.done, nofun⟩
  | bytecode method args =>
    rcases Vm.enterLoop_cases method args vm with ⟨e, vm', h, hctx, he⟩ | ⟨f, vm', h, hctx⟩
    · exact Machine.continueWith_error h (hctx ▸ .done) he
    · dsimp only [begin]
      rw [Machine.continueWith_ok h]
      refine ⟨?_, fun _ => ⟨_, _, _, rfl⟩⟩
      have hw := Context.Within.of_pushLoop (d := vm.context) f
      rw [← hctx] at hw
      exact .loop hw .done

theorem Outcome.Balanced.reaches {c₀ : Context} {o o' : Outcome} (h : o.Balanced c₀)
    (hr : o.Reaches o') : o'.Balanced c₀ := by
  induction hr with
  | refl => exact h
  | tail _ hl ih =>
    cases hl with
    | step m => exact Machine.Balanced.step ih
    | answer m request a => exact Machine.Balanced.resume ih a

theorem Machine.stepRunning_next {vm : Vm} {floor base : Nat} {ks : List Kont} {m : Machine}
    (h : stepRunning vm (.loop floor base :: ks) = .next m) :
    m.vm = final (Vm.stepLoop floor vm) := by
  dsimp only [stepRunning] at h
  unfold continueWith at h
  cases hl : Vm.stepLoop floor vm with
  | ok flow vm' =>
    rw [hl] at h
    cases flow <;> cases h <;> rfl
  | error e vm' =>
    rw [hl] at h
    cases e <;> cases h
    rfl

/-- A frame that runs keeps to its own operands. -/
theorem Machine.Balanced.spares {c₀ : Context} {m : Machine} (h : m.Balanced c₀)
    (hmode : m.mode = .running) :
    ∃ (outer : Array ActiveFrame) (f : ActiveFrame), m.vm.frames = outer.push f ∧
      f.base ≤ m.vm.stack.size ∧
      (∀ vm, vm.context = m.vm.context → Spares f.base Vm.perform vm) ∧
      ∀ m', m.step = .next m' →
        m'.vm.stack.extract 0 f.base = m.vm.stack.extract 0 f.base := by
  obtain ⟨floor, base, ks, hk⟩ := h.running hmode
  have hb := h.konts
  rw [hk] at hb
  obtain ⟨d, inner, hw, -, rfl, rfl⟩ := hb.of_loop
  obtain ⟨init, f, low, high, rfl, hs, hlow⟩ := hw.split
  refine ⟨d.frames ++ init.toArray, f, hw.frames_eq, hw.height f (by simp), ?_, ?_⟩
  · intro vm hctx
    rw [← hctx] at hw hs
    obtain ⟨hplace, honto⟩ := hw.place hs
    have := Isolated.perform.spares hplace hlow
    rwa [honto] at this
  · intro m' hstep
    obtain ⟨-, hlower⟩ := Vm.stepLoop_ends hw hs hlow
    have hvm : m'.vm = final (Vm.stepLoop d.frames.size m.vm) := by
      unfold Machine.step at hstep
      rw [hmode, hk] at hstep
      exact stepRunning_next hstep
    have hbelow : ∀ s : Array Ref, low.toList <+: s.toList → s.extract 0 f.base = low := by
      intro s hp
      apply Array.ext'
      rw [← hlow]
      simpa using (List.prefix_iff_eq_take.mp hp).symm
    have hs : m.vm.stack = low ++ high := hs
    rw [hvm, hbelow _ hlower, hbelow _ (by simp [hs])]

/-- A call never touches its caller. Whatever the state, the callee, the arguments and the bytecode
are: a call that ends, with a value or an error, leaves the operands, the frames, the temporary
roots, the count of loops and the nesting of the heap as they were. All along, the operands and
frames of the caller lie below those of the call; the instruction of a running frame neither looks
at nor changes operands below the base of the frame; and nothing is looked for outside of the
operand stack. -/
theorem calls_balanced (vm : Vm) (entry : Entry) {o : Outcome} (hr : (entry.begin vm).Reaches o) :
    (∀ vm' result, o = .done vm' result → vm'.context = vm.context) ∧
    (∀ vm' n height, o ≠ .fatal vm' (.operandRange n height)) ∧
    ∀ m, o = .next m →
      (vm.stack.toList <+: m.vm.stack.toList ∧ vm.frames.toList <+: m.vm.frames.toList ∧
        vm.temps <:+ m.vm.temps) ∧
      (m.mode = .running →
        ∃ (outer : Array ActiveFrame) (f : ActiveFrame), m.vm.frames = outer.push f ∧
          f.base ≤ m.vm.stack.size ∧
          (∀ vm', vm'.context = m.vm.context → Spares f.base Vm.perform vm') ∧
          ∀ m', m.step = .next m' →
            m'.vm.stack.extract 0 f.base = m.vm.stack.extract 0 f.base) := by
  have hb := (entry.begin_balanced vm).reaches hr
  refine ⟨?_, ?_, ?_⟩
  · rintro vm' result rfl
    exact hb
  · rintro vm' n height rfl
    exact hb n height rfl
  · rintro m rfl
    exact ⟨hb.konts.extends, hb.spares⟩

/-- A task with one method, for a unit without constants, and one operand of its own. -/
def Vm.ofUnit (unit : CodeUnit) : Vm :=
  { heap :=
      { Heap.empty 0 {} with
        cells := #[
          { obj := some ⟨⟨0, 0, 0⟩,
              .cls { name := "Method", super := none, size := 0, slots := { call := some .method } }⟩ },
          { obj := some ⟨⟨0, 0, 0⟩, .code ⟨unit, #[]⟩⟩ },
          { obj := some ⟨⟨0, 0, 0⟩, .method { name := "", body := .bytecode ⟨0, 1, 0⟩ none }⟩ }] }
    task := ⟨0, 0⟩
    config := {}
    registry := {}
    stack := #[nilRef 0] }

/-- A method that pushes nil and returns it. -/
theorem call_balanced_nil :
    ∃ vm', ((Entry.call ⟨0, 2, 0⟩ []).begin
        (Vm.ofUnit { code := #[.simple .pushNil, .simple .ret] })).Reaches
          (.done vm' (.ok (nilRef 0))) ∧
      vm'.context = (Vm.ofUnit { code := #[.simple .pushNil, .simple .ret] }).context := by
  obtain ⟨vm', hrun⟩ : ∃ vm', Machine.run 5
      ⟨Vm.ofUnit { code := #[.simple .pushNil, .simple .ret] }, [], .calling ⟨0, 2, 0⟩ []⟩ =
        .done vm' (.ok (nilRef 0)) := ⟨_, rfl⟩
  have hr := Outcome.reaches_run
    ⟨Vm.ofUnit { code := #[.simple .pushNil, .simple .ret] }, [], .calling ⟨0, 2, 0⟩ []⟩ 5
  rw [hrun] at hr
  exact ⟨vm', hr, (calls_balanced _ (.call ⟨0, 2, 0⟩ []) hr).1 _ _ rfl⟩

end ObjectMachine
