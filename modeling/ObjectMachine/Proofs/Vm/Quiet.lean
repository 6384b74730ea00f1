import ObjectMachine.Proofs.Heap.Plain
import ObjectMachine.Proofs.Heap.Cells
import ObjectMachine.Vm.Call

/-!
# ObjectMachine.Proofs.Vm.Quiet

Which actions leave the interpreter alone.

Most of what a program does is done to the heap and to the namespaces. Such an action is `Quiet`:
it leaves the operand stack, the frames, the temporary roots, the count of loops and the nesting of
the heap as they are, and it looks neither at the operand stack, nor at where on it the frames
stand, nor at the count of loops. Entering a method looks at the last two and is `Blind` only to the
operands. Collections are only `Steady`: they take the operand stack for roots.

* `Context` — what a call has to leave as it was.
* `Vm.relay` — the same state with the frames laid out in another way.
* `Steady`, `Blind`, `Quiet` — the kinds of actions. As in `Plain`, the instances follow the
  definitions.
-/

namespace ObjectMachine

/-- The part of a task's state that belongs to the interpreter, and its settings. -/
@[ext] structure Context where
  stack : Array Ref
  frames : Array ActiveFrame
  temps : List Ref
  loops : Nat
  nesting : Nat
  heap : Nat
  task : TaskId
  config : Config
  registry : Registry

namespace Context

/-- With one more frame, on the operands that there are. -/
def pushFrame (c : Context) (f : ActiveFrame) : Context :=
  { c with frames := c.frames.push { f with base := c.stack.size } }

/-- With one more frame in an interpreter loop of its own. -/
def pushLoop (c : Context) (f : ActiveFrame) : Context :=
  { c.pushFrame f with loops := c.loops + 1 }

end Context

namespace Vm

def context (vm : Vm) : Context :=
  ⟨vm.stack, vm.frames, vm.temps, vm.loops, vm.heap.nesting, vm.heap.id, vm.task, vm.config,
    vm.registry⟩

/-- The same state with other operands. -/
def restack (s : Array Ref) (vm : Vm) : Vm :=
  { vm with stack := s }

@[simp] theorem restack_context (s : Array Ref) (vm : Vm) :
    (vm.restack s).context = { vm.context with stack := s } := rfl

/-- Where the frames of a task stand: its operands, its frames and its loops. -/
structure Layout where
  stack : Array Ref
  frames : Array ActiveFrame
  loops : Nat

/-- The same state in another layout. -/
def relay (l : Layout) (vm : Vm) : Vm :=
  { vm with stack := l.stack, frames := l.frames, loops := l.loops }

end Vm

/-- The frame with its operands somewhere else. -/
def ActiveFrame.based (f : ActiveFrame) (base : Nat) : ActiveFrame :=
  { f with base := base }

/-- The layout has the frames of the state, wherever these stand. -/
def Vm.Layout.Fits (l : Vm.Layout) (vm : Vm) : Prop :=
  l.frames.map (·.based 0) = vm.frames.map (·.based 0)

namespace Vm.Layout.Fits

variable {l : Vm.Layout} {vm : Vm}

theorem size (h : l.Fits vm) : l.frames.size = vm.frames.size := by
  have := congrArg Array.size h
  simpa using this

/-- The frames stand at the same instructions. -/
theorem backtrace (h : l.Fits vm) : (vm.relay l).backtrace = vm.backtrace := by
  have hmap : ∀ fs : Array ActiveFrame,
      fs.toList.reverse.map (fun f => f.unit.name ++ " @" ++ toString (f.ip - 1)) =
        (fs.map (·.based 0)).toList.reverse.map
          (fun f => f.unit.name ++ " @" ++ toString (f.ip - 1)) := by
    intro fs
    simp [ActiveFrame.based]
  show l.frames.toList.reverse.map _ = vm.frames.toList.reverse.map _
  rw [hmap, h, ← hmap]

theorem of_context {vm' : Vm} (h : l.Fits vm) (hctx : vm'.context = vm.context) : l.Fits vm' := by
  have hframes : vm'.frames = vm.frames := congrArg Context.frames hctx
  rw [Fits, hframes]
  exact h

end Vm.Layout.Fits

namespace Action

variable {α β : Type}

/-- The state in which an action ends. -/
def final : EStateM.Result Stop Vm α → Vm
  | .ok _ vm => vm
  | .error _ vm => vm

/-- The same end in another state. -/
def mapState (f : Vm → Vm) : EStateM.Result Stop Vm α → EStateM.Result Stop Vm α
  | .ok a vm => .ok a (f vm)
  | .error e vm => .error e (f vm)

@[simp] theorem final_mapState (f : Vm → Vm) (x : EStateM.Result Stop Vm α) :
    final (mapState f x) = f (final x) := by
  cases x <;> rfl

theorem bind_run (a : Action α) (f : α → Action β) (vm : Vm) :
    (a >>= f) vm =
      match a vm with
      | .ok x vm => f x vm
      | .error e vm => .error e vm := by
  show EStateM.bind a f vm = _
  unfold EStateM.bind
  cases a vm <;> rfl

theorem bind_ok {a : Action α} {f : α → Action β} {vm vm' : Vm} {x : α} (h : a vm = .ok x vm') :
    (a >>= f) vm = f x vm' := by
  rw [bind_run, h]

theorem bind_error {a : Action α} {f : α → Action β} {vm vm' : Vm} {e : Stop}
    (h : a vm = .error e vm') : (a >>= f) vm = .error e vm' := by
  rw [bind_run, h]

/-- The action fails, and neither does it change the interpreter nor is it about the operand
stack. -/
def FailsSteadily (a : Action α) (vm : Vm) : Prop :=
  ∃ e vm', a vm = .error e vm' ∧ vm'.context = vm.context ∧
    ∀ n height, e ≠ .fatal (.operandRange n height)

theorem FailsSteadily.bind {a : Action α} {vm : Vm} (h : FailsSteadily a vm) (f : α → Action β) :
    FailsSteadily (a >>= f) vm := by
  obtain ⟨e, vm', ha, hctx, he⟩ := h
  exact ⟨e, vm', bind_error ha, hctx, he⟩

end Action

open ObjectMachine.Action

/-- An action that leaves the interpreter as it was, whether or not it fails, and does not fail
over the operand stack. -/
class Steady {α : Type} (a : Action α) : Prop where
  context : ∀ vm, (final (a vm)).context = vm.context
  plain : ∀ vm n height vm', a vm ≠ .error (.fatal (.operandRange n height)) vm'

/-- A steady action that does not look at the operand stack. -/
class Blind {α : Type} (a : Action α) : Prop extends Steady a where
  blind : ∀ vm s, a (vm.restack s) = mapState (Vm.restack s) (a vm)

/-- A steady action that does not look at the layout of the frames. -/
class Quiet {α : Type} (a : Action α) : Prop extends Steady a where
  apart : ∀ vm l, l.Fits vm → a (vm.relay l) = mapState (Vm.relay l) (a vm)

namespace Steady

variable {α β : Type}

instance bind (a : Action α) (f : α → Action β) [ha : Steady a] [hf : ∀ x, Steady (f x)] :
    Steady (a >>= f) where
  context vm := by
    have hctx := ha.context vm
    cases h : a vm with
    | ok x vm' =>
      rw [h] at hctx
      rw [bind_ok h]
      exact ((hf x).context vm').trans hctx
    | error e vm' =>
      rw [h] at hctx
      rw [bind_error h]
      exact hctx
  plain vm n height vm'' := by
    cases h : a vm with
    | ok x vm' =>
      rw [bind_ok h]
      exact (hf x).plain vm' n height vm''
    | error e vm' =>
      rw [bind_error h]
      intro he
      cases he
      exact ha.plain vm n height vm'' h

/-- An action that depends on the state in which it begins. -/
theorem reading {f : Vm → Action α} [h : ∀ vm, Steady (f vm)] : Steady fun vm => f vm vm :=
  ⟨fun vm => (h vm).context vm, fun vm => (h vm).plain vm⟩

theorem get_bind {f : Vm → Action α} [h : ∀ vm, Steady (f vm)] : Steady (get >>= f) :=
  reading (f := f)

/-- How a steady action ends. -/
theorem cases (a : Action α) [h : Steady a] (vm : Vm) :
    FailsSteadily a vm ∨ ∃ x vm', a vm = .ok x vm' ∧ vm'.context = vm.context := by
  have hctx := h.context vm
  have hplain := h.plain vm
  cases ha : a vm with
  | ok x vm' =>
    rw [ha] at hctx
    exact .inr ⟨x, vm', rfl, hctx⟩
  | error e vm' =>
    rw [ha] at hctx
    refine .inl ⟨e, vm', ha, hctx, ?_⟩
    rintro n height rfl
    exact hplain n height vm' ha

end Steady

namespace Blind

variable {α β : Type}

instance quiet (a : Action α) [ha : Quiet a] : Blind a where
  toSteady := inferInstance
  blind vm s := by
    have hctx := ha.context vm
    have hrun := ha.apart vm ⟨s, vm.frames, vm.loops⟩ rfl
    have hlay : ∀ vm' : Vm, vm'.context = vm.context →
        vm'.relay ⟨s, vm.frames, vm.loops⟩ = vm'.restack s := by
      intro vm' h
      rw [← show vm'.frames = vm.frames from congrArg Context.frames h,
        ← show vm'.loops = vm.loops from congrArg Context.loops h]
      rfl
    rw [← hlay vm rfl, hrun]
    cases h : a vm with
    | ok x vm' =>
      rw [h] at hctx
      simp only [mapState, hlay vm' hctx]
    | error e vm' =>
      rw [h] at hctx
      simp only [mapState, hlay vm' hctx]

instance bind (a : Action α) (f : α → Action β) [ha : Blind a] [hf : ∀ x, Blind (f x)] :
    Blind (a >>= f) where
  toSteady := inferInstance
  blind vm s := by
    have hblind := ha.blind vm s
    cases h : a vm with
    | ok x vm' =>
      rw [h] at hblind
      rw [bind_ok h, bind_ok hblind]
      exact (hf x).blind vm' s
    | error e vm' =>
      rw [h] at hblind
      rw [bind_error h, bind_error hblind]
      rfl

/-- An action that begins with a look at the state, but for the operand stack. -/
theorem get_bind {f : Vm → Action α} (hf : ∀ vm s, f (vm.restack s) = f vm)
    (h : ∀ vm, Blind (f vm)) : Blind (get >>= f) where
  toSteady := Steady.get_bind
  blind vm s := by
    show f (vm.restack s) (vm.restack s) = mapState (Vm.restack s) (f vm vm)
    rw [hf]
    exact (h vm).blind vm s

end Blind

namespace Quiet

variable {α β : Type}

instance return_ (x : α) : Quiet (pure x : Action α) where
  context _ := rfl
  plain _ _ _ _ := nofun
  apart _ _ _ := rfl

instance bind (a : Action α) (f : α → Action β) [ha : Quiet a] [hf : ∀ x, Quiet (f x)] :
    Quiet (a >>= f) where
  toSteady := inferInstance
  apart vm l hl := by
    have hctx := ha.context vm
    have hapart := ha.apart vm l hl
    cases h : a vm with
    | ok x vm' =>
      rw [h] at hapart hctx
      rw [bind_ok h, bind_ok hapart]
      exact (hf x).apart vm' l (hl.of_context hctx)
    | error e vm' =>
      rw [h] at hapart
      rw [bind_error h, bind_error hapart]
      rfl

instance raise (e : Error) : Quiet (Action.raise e : Action α) where
  context _ := rfl
  plain _ _ _ _ := nofun
  apart _ _ _ := rfl

instance crash : Quiet (throw .crashed : Action α) where
  context _ := rfl
  plain _ _ _ _ := nofun
  apart _ _ _ := rfl

/-- What stands after a failure does not matter. -/
instance crash_bind (f : α → Action β) : Quiet ((throw .crashed : Action α) >>= f) :=
  crash

instance raise_bind (e : Error) (f : α → Action β) :
    Quiet ((Action.raise e : Action α) >>= f) :=
  raise e

theorem fatal {f : Fatal} (hf : ∀ n height, f ≠ .operandRange n height) :
    Quiet (Action.fatal f : Action α) where
  context _ := rfl
  plain _ n height _ h := by cases h; exact hf n height rfl
  apart _ _ _ := rfl

instance ofHeap (f : Heap → Except Fatal α) [hf : ∀ h, Plain (f h)] : Quiet (Action.ofHeap f) where
  context vm := by
    unfold Action.ofHeap
    cases f vm.heap <;> rfl
  plain vm n height vm' h := by
    unfold Action.ofHeap at h
    cases he : f vm.heap with
    | ok a => rw [he] at h; cases h
    | error e => rw [he] at h; cases h; exact (hf vm.heap).ne_range n height he
  apart vm l _ := by
    unfold Action.ofHeap
    show (match f vm.heap with
      | .ok a => EStateM.Result.ok a (vm.relay l)
      | .error e => EStateM.Result.error (Stop.fatal e) (vm.relay l)) = _
    cases f vm.heap <;> rfl

/-- An action that depends on the state in which it begins, but for the layout. -/
theorem reading {f : Vm → Action α} (hf : ∀ vm l, l.Fits vm → f (vm.relay l) = f vm)
    (h : ∀ vm, Quiet (f vm)) : Quiet fun vm => f vm vm where
  toSteady := Steady.reading
  apart vm l hl := by
    rw [hf vm l hl]
    exact (h vm).apart vm l hl

/-- An action that begins with a look at the state, but for the layout. -/
theorem get_bind {f : Vm → Action α} (hf : ∀ vm l, l.Fits vm → f (vm.relay l) = f vm)
    (h : ∀ vm, Quiet (f vm)) : Quiet (get >>= f) :=
  reading (f := f) hf h

/-- A change of the heap and the namespaces. -/
theorem changing {f : Vm → Vm} (hctx : ∀ vm, (f vm).context = vm.context)
    (hf : ∀ vm l, l.Fits vm → f (vm.relay l) = (f vm).relay l) :
    Quiet (modify f : Action Unit) where
  context := hctx
  plain _ _ _ _ := nofun
  apart vm l hl := congrArg (EStateM.Result.ok ()) (hf vm l hl)

theorem changingHeap {f : Heap → Heap} (hid : ∀ h, (f h).id = h.id)
    (hnest : ∀ h, (f h).nesting = h.nesting) : Quiet (Action.modifyHeap f) :=
  changing (fun vm => by simp [Vm.context, hid, hnest]) fun _ _ _ => rfl

instance update (r : Ref) (f : Payload → Payload) :
    Quiet (Action.modifyHeap fun h => h.update r f) :=
  changingHeap (fun _ => rfl) fun _ => rfl

end Quiet
end ObjectMachine
