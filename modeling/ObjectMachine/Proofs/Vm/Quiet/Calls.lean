import ObjectMachine.Machine.Instruction
import ObjectMachine.Proofs.Heap.Exact
import ObjectMachine.Proofs.Vm.Quiet.Data

/-!
# ObjectMachine.Proofs.Vm.Quiet.Calls

Frames, copies, constructors and names: quiet actions up to the point where a frame is pushed.
Native functions are steady; among them only a collection looks at the operand stack.

* `Vm.enter_cases` — entering a method fails quietly or pushes a frame for it.
* `Vm.call_ends` — a call fails or answers steadily, or enters an interpreter loop.
-/

namespace ObjectMachine

open ObjectMachine.Action

/-- What a method is activated with, once it is known that there is room for another frame. -/
def Vm.prepare (method : Ref) (args : List Ref) : Action ActiveFrame := do
  let c ← callee method
  let unit ← codeUnit c.code
  let values := c.receiver.toList ++ args
  if values.length ≠ unit.arity.toNat then
    Action.raise (.arity unit.name unit.arity.toNat values.length)
  let (frame, locals) ← allocFrame method unit c.bindings
  bindParams locals unit.params values
  trace Channels.vm "vm" fun vm => s!"enter {unit.name} (depth {vm.frames.size + 1})"
  return { frame := frame, method := method, code := c.code, module := c.module, unit := unit
           ip := 0, base := 0 }

theorem Vm.activate_eq (method : Ref) (args : List Ref) :
    activate method args = get >>= fun vm =>
      if vm.callDepth ≥ vm.config.maxFrames then Action.raise (.stackOverflow vm.frames.size)
      else prepare method args := by
  funext vm
  unfold activate
  rw [bind_run, bind_run]
  show (ite (vm.callDepth ≥ vm.config.maxFrames) _ _ : Action ActiveFrame) vm =
    (ite (vm.callDepth ≥ vm.config.maxFrames) _ _ : Action ActiveFrame) vm
  by_cases hfull : vm.callDepth ≥ vm.config.maxFrames
  · rw [if_pos hfull, if_pos hfull]
    rfl
  · rw [if_neg hfull, if_neg hfull]
    rfl

namespace Quiet

variable {α : Type}

/-! ## Frames -/

instance callee (method : Ref) : Quiet (Vm.callee method) := by
  unfold Vm.callee
  refine @bind _ _ _ _ _ fun p => ?_
  cases p with
  | method m =>
    dsimp only
    cases m.body <;> infer_instance
  | _ => infer_instance

instance isBytecode (r : Ref) : Quiet (Vm.isBytecode r) := by
  unfold Vm.isBytecode
  refine @bind _ _ _ _ _ fun p => ?_
  cases p with
  | method m =>
    dsimp only
    cases m.body <;> infer_instance
  | _ => infer_instance

instance makeLocals (bindings : NameMap Ref) (names : List String) (locals : NameMap Ref) :
    Quiet (Vm.makeLocals bindings names locals) := by
  induction names generalizing locals with
  | nil => exact return_ locals
  | cons name rest ih =>
    unfold Vm.makeLocals
    dsimp only
    split <;> infer_instance

instance allocFrame (method : Ref) (unit : CodeUnit) (bindings : NameMap Ref) :
    Quiet (Vm.allocFrame method unit bindings) := by
  unfold Vm.allocFrame; infer_instance

instance buildFrame (method : Ref) : Quiet (Vm.buildFrame method) := by
  unfold Vm.buildFrame; infer_instance

instance bindParams (locals : NameMap Ref) (names : List String) (values : List Ref) :
    Quiet (Vm.bindParams locals names values) := by
  induction names generalizing values with
  | nil => unfold Vm.bindParams; infer_instance
  | cons name names ih =>
    cases values with
    | nil => unfold Vm.bindParams; infer_instance
    | cons value values =>
      unfold Vm.bindParams
      dsimp only
      split <;> infer_instance

instance prepare (method : Ref) (args : List Ref) : Quiet (Vm.prepare method args) := by
  unfold Vm.prepare
  refine @bind _ _ _ _ _ fun c => @bind _ _ _ _ _ fun unit => ?_
  dsimp only
  split
  · infer_instance
  · refine @bind _ _ _ _ _ fun made => @bind _ _ _ _ _ fun _ => ?_
    exact @bind _ _ _ _ (traceOf fun _ _ hl => by rw [← hl.size]; rfl) inferInstance

/-! ## Copies -/

instance pack (r : Ref) : Quiet (Vm.pack r) where
  context vm := by
    unfold Vm.pack
    cases vm.heap.pack r <;> rfl
  plain vm n height vm' h := by
    unfold Vm.pack at h
    cases he : vm.heap.pack r with
    | ok p => rw [he] at h; cases h
    | error e =>
      rw [he] at h
      cases h
      exact PlainCopy.ne_range n height he
  apart vm l _ := by
    unfold Vm.pack
    show (match vm.heap.pack r with
      | .ok p => EStateM.Result.ok p (vm.relay l)
      | .error e => .error e (vm.relay l)) = _
    cases vm.heap.pack r <;> rfl

instance importOption (module : Option String) : Quiet (Vm.importOption module) := by
  cases module <;> unfold Vm.importOption <;> infer_instance

mutual

theorem unpack : ∀ p, Quiet (Vm.unpack p)
  | .nil => by unfold Vm.unpack; infer_instance
  | .bool _ => by unfold Vm.unpack; infer_instance
  | .int _ => by unfold Vm.unpack; infer_instance
  | .float _ => by unfold Vm.unpack; infer_instance
  | .str _ => by unfold Vm.unpack; infer_instance
  | .array items => by
    have := unpackItems items
    unfold Vm.unpack
    infer_instance
  | .hash entries => by
    have := fun h => unpackEntries h entries
    unfold Vm.unpack
    infer_instance
  | .error _ cause _ => by
    have := unpackOption cause
    unfold Vm.unpack
    infer_instance
  | .method _ body receiver => by
    have := unpackOption receiver
    have := unpackBody body
    unfold Vm.unpack
    infer_instance
  | .task _ => by unfold Vm.unpack; infer_instance

theorem unpackBody : ∀ body, Quiet (Vm.unpackBody body)
  | .native _ => by unfold Vm.unpackBody; infer_instance
  | .bytecode _ _ => by unfold Vm.unpackBody; infer_instance
  | .closure _ _ bindings => by
    have := unpackBindings bindings
    unfold Vm.unpackBody
    infer_instance

theorem unpackItems : ∀ items, Quiet (Vm.unpackItems items)
  | [] => by unfold Vm.unpackItems; infer_instance
  | p :: rest => by
    have := unpack p
    have := unpackItems rest
    unfold Vm.unpackItems
    infer_instance

theorem unpackEntries (hash : Ref) : ∀ entries, Quiet (Vm.unpackEntries hash entries)
  | [] => by unfold Vm.unpackEntries; infer_instance
  | (k, v) :: rest => by
    have := unpack k
    have := unpack v
    have := unpackEntries hash rest
    unfold Vm.unpackEntries
    infer_instance

theorem unpackOption : ∀ value, Quiet (Vm.unpackOption value)
  | none => by unfold Vm.unpackOption; infer_instance
  | some p => by
    have := unpack p
    unfold Vm.unpackOption
    infer_instance

theorem unpackBindings : ∀ bindings vars, Quiet (Vm.unpackBindings bindings vars)
  | [], _ => by unfold Vm.unpackBindings; infer_instance
  | (_, value) :: rest, vars => by
    have := unpackOption value
    have := unpackBindings rest
    unfold Vm.unpackBindings
    infer_instance

end

attribute [instance] unpack

/-! ## Constructors -/

instance displayLine (values : List Ref) : Quiet (Vm.displayLine values) := by
  unfold Vm.displayLine; infer_instance

instance superOf (r : Ref) : Quiet (Vm.superOf r) := by
  unfold Vm.superOf
  refine @bind _ _ _ _ _ fun p => ?_
  cases p <;> infer_instance

instance classNewFrom (args : List Ref) : Quiet (Vm.classNewFrom args) := by
  unfold Vm.classNewFrom
  split
  · refine @bind _ _ _ _ _ fun name => @bind _ _ _ _ _ fun super => @bind _ _ _ _ _ fun p => ?_
    cases p with
    | int n =>
      dsimp only
      split <;> infer_instance
    | _ => infer_instance
  · infer_instance

instance expectClass (r : Ref) : Quiet (Vm.expectClass r) := by
  unfold Vm.expectClass
  refine @bind _ _ _ _ _ fun p => ?_
  cases p <;> infer_instance

instance defineFrom (args : List Ref) : Quiet (Vm.defineFrom args) := by
  unfold Vm.defineFrom
  split <;> infer_instance

instance toInt (r : Ref) : Quiet (Vm.toInt r) := by
  unfold Vm.toInt
  refine @bind _ _ _ _ _ fun p => ?_
  cases p with
  | str b =>
    dsimp only
    split <;> infer_instance
  | _ => infer_instance

instance toFloat (r : Ref) : Quiet (Vm.toFloat r) := by
  unfold Vm.toFloat
  refine @bind _ _ _ _ _ fun p => ?_
  cases p with
  | str b =>
    dsimp only
    split <;> infer_instance
  | _ => infer_instance

/-! ## Requests and native functions -/

instance requestSpawn (callable : Ref) : Quiet (Vm.requestSpawn callable) := by
  unfold Vm.requestSpawn; infer_instance

instance requestSend (target value : Ref) : Quiet (Vm.requestSend target value) := by
  unfold Vm.requestSend
  refine @bind _ _ _ _ _ fun t => @bind _ _ _ _ _ fun message => ?_
  exact @bind _ _ _ _ (traceOf fun _ _ _ => rfl) inferInstance

instance requestJoin (target : Ref) : Quiet (Vm.requestJoin target) := by
  unfold Vm.requestJoin
  refine @bind _ _ _ _ _ fun t => get_bind (fun _ _ _ => rfl) fun vm => ?_
  dsimp only
  split
  · infer_instance
  · split <;> infer_instance

instance arrayPush (array item : Ref) : Quiet (Vm.arrayPush array item) := by
  unfold Vm.arrayPush
  refine @bind _ _ _ _ _ fun p => ?_
  cases p <;> infer_instance

instance arrayPop (array : Ref) : Quiet (Vm.arrayPop array) := by
  unfold Vm.arrayPop
  refine @bind _ _ _ _ _ fun p => ?_
  cases p with
  | array items =>
    refine @bind _ _ _ _ _ fun _ => ?_
    split <;> infer_instance
  | _ => infer_instance

instance setSlot (obj : Ref) (i : Nat) (value : Ref) : Quiet (Vm.setSlot obj i value) := by
  unfold Vm.setSlot
  refine @bind _ _ _ _ _ fun p => ?_
  cases p with
  | object slots =>
    dsimp only
    split <;> infer_instance
  | _ => infer_instance

instance getSlot? (obj : Ref) (i : Nat) : Quiet (Vm.getSlot? obj i) := by
  unfold Vm.getSlot?
  refine @bind _ _ _ _ _ fun p => ?_
  cases p <;> infer_instance

/-- An action that replaces one failure of another by nil. -/
instance hashGet (hash key : Ref) : Quiet (Vm.hashGet hash key) where
  context vm := by
    have hctx := Steady.context (a := Vm.getItem hash key) vm
    unfold Vm.hashGet
    split
    · rename_i h
      rw [h] at hctx
      exact (Steady.context (a := Vm.nil) _).trans hctx
    · exact hctx
  plain vm n height vm' := by
    unfold Vm.hashGet
    split
    · exact Steady.plain _ n height vm'
    · exact Steady.plain vm n height vm'
  apart vm l hl := by
    have hapart := Quiet.apart (a := Vm.getItem hash key) vm l hl
    unfold Vm.hashGet
    rw [hapart]
    cases h : Vm.getItem hash key vm with
    | ok r vm' => rfl
    | error e vm' =>
      cases e with
      | raised e => cases e <;> rfl
      | fatal f => rfl
      | crashed => rfl

instance printing (line : String) :
    Quiet (modify fun vm => { vm with output := vm.output ++ line ++ "\n" } : Action Unit) :=
  changing (fun _ => rfl) fun _ _ _ => rfl

end Quiet

instance Blind.activate (method : Ref) (args : List Ref) : Blind (Vm.activate method args) := by
  rw [Vm.activate_eq]
  refine get_bind (fun _ _ => rfl) fun vm => ?_
  split <;> infer_instance

namespace Steady

/-- A collection changes nothing but the heap. -/
instance collect : Steady Vm.collect where
  context vm := by
    unfold Vm.collect
    cases h : vm.heap.collect vm.roots with
    | error e => rfl
    | ok out =>
      obtain ⟨freed, heap⟩ := out
      have hframe : vm.heap.SameFrame heap := by
        unfold Heap.collect at h
        split at h
        · cases h; exact Heap.sweep_frame _ _
        · cases h
      have hctx : ({ vm with heap := heap } : Vm).context = vm.context := by
        simp [Vm.context, hframe.id, hframe.nesting]
      rw [← hctx]
      exact (@bind _ _ _ _ (Quiet.traceOf fun _ _ _ => rfl).toSteady inferInstance).context _
  plain vm n height vm' h := by
    unfold Vm.collect at h
    cases he : vm.heap.collect vm.roots with
    | error e => rw [he] at h; cases h; exact Plain.ne_range n height he
    | ok out => rw [he] at h; cases h

end Steady

/-! ## Answers to calls -/

/-- A steady action whose answer is not that a frame was pushed. -/
class Settled (a : Action Reply) : Prop extends Steady a where
  not_entered : ∀ vm vm' floor base, a vm ≠ .ok (.entered floor base) vm'

namespace Settled

variable {α : Type}

instance bind (a : Action α) (f : α → Action Reply) [ha : Steady a] [hf : ∀ x, Settled (f x)] :
    Settled (a >>= f) where
  toSteady := inferInstance
  not_entered vm vm'' floor base := by
    cases h : a vm with
    | ok x vm' => rw [bind_ok h]; exact (hf x).not_entered vm' vm'' floor base
    | error e vm' => rw [bind_error h]; nofun

theorem get_bind {f : Vm → Action Reply} [h : ∀ vm, Settled (f vm)] : Settled (get >>= f) where
  toSteady := Steady.get_bind
  not_entered vm := (h vm).not_entered vm

instance value (r : Ref) : Settled (pure (.value r)) := ⟨fun _ _ _ _ => nofun⟩

instance call (callee : Ref) (args : List Ref) : Settled (pure (.call callee args)) :=
  ⟨fun _ _ _ _ => nofun⟩

instance attempt (callee : Ref) (args : List Ref) : Settled (pure (.attempt callee args)) :=
  ⟨fun _ _ _ _ => nofun⟩

instance constructing (cls : Ref) (args : List Ref) : Settled (pure (.construct cls args)) :=
  ⟨fun _ _ _ _ => nofun⟩

instance fill (obj init : Ref) (args : List Ref) : Settled (pure (.fill obj init args)) :=
  ⟨fun _ _ _ _ => nofun⟩

instance wait (request : Request) : Settled (pure (.wait request)) := ⟨fun _ _ _ _ => nofun⟩

instance raise (e : Error) : Settled (Action.raise e) := ⟨fun _ _ _ _ => nofun⟩

instance crash : Settled (throw .crashed) := ⟨fun _ _ _ _ => nofun⟩

instance crash_bind (f : α → Action Reply) : Settled ((throw .crashed : Action α) >>= f) := crash

instance mismatch (expected : String) (found : Ref) : Settled (Vm.mismatch expected found) := by
  unfold Vm.mismatch; infer_instance

instance constructObject (cls : Ref) (args : List Ref) :
    Settled (Vm.constructObject cls args) := by
  unfold Vm.constructObject
  refine @bind _ _ _ _ fun c => ?_
  dsimp only
  split
  · infer_instance
  · refine @bind _ _ _ _ fun nothing => @bind _ _ _ _ fun obj => @bind _ _ _ _ fun found => ?_
    cases found with
    | some init => infer_instance
    | none =>
      dsimp only
      split <;> infer_instance

instance runInit (f : InitFn) (cls : Ref) (args : List Ref) : Settled (Vm.runInit f cls args) := by
  unfold Vm.runInit
  split <;> first
    | infer_instance
    | (refine @bind _ _ _ _ fun p => ?_
       cases p <;> infer_instance)

instance construct (cls : Ref) (args : List Ref) : Settled (Vm.construct cls args) := by
  unfold Vm.construct; infer_instance

instance runNative (f : Native) (args : List Ref) : Settled (Vm.runNative f args) := by
  unfold Vm.runNative
  split
  case h_6 | h_30 | h_31 => exact get_bind
  case h_32 =>
    refine @bind _ _ _ _ fun p => ?_
    cases p with
    | int n =>
      refine @bind _ _ _ _ fun found => ?_
      cases found <;> infer_instance
    | _ => infer_instance
  case h_33 =>
    refine @bind _ _ _ _ fun p => ?_
    cases p with
    | int n =>
      refine @bind _ _ _ _ fun done => ?_
      split <;> infer_instance
    | _ => infer_instance
  all_goals infer_instance

theorem cases (a : Action Reply) [h : Settled a] (vm : Vm) :
    FailsSteadily a vm ∨ ∃ reply vm', a vm = .ok reply vm' ∧ vm'.context = vm.context ∧
      ∀ floor base, reply ≠ .entered floor base := by
  rcases Steady.cases a vm with hfail | ⟨reply, vm', ha, hctx⟩
  · exact .inl hfail
  · refine .inr ⟨reply, vm', ha, hctx, ?_⟩
    rintro floor base rfl
    exact h.not_entered vm vm' floor base ha

end Settled

namespace Vm

/-! ## Frames that are pushed -/

/-- Entering a method fails, or puts a frame on top of the frames and of the operands. -/
theorem enter_cases (method : Ref) (args : List Ref) (vm : Vm) :
    FailsSteadily (enter method args) vm ∨
      ∃ f vm', enter method args vm = .ok () vm' ∧ vm'.context = vm.context.pushFrame f := by
  unfold enter
  rcases Steady.cases (activate method args) vm with h | ⟨f, vm', h, hctx⟩
  · exact .inl (h.bind _)
  · refine .inr ⟨f, _, bind_ok h, ?_⟩
    rw [← hctx]
    rfl

theorem enterLoop_run (method : Ref) (args : List Ref) (vm : Vm) :
    enterLoop method args vm =
      if vm.loops ≥ vm.config.maxNativeDepth then
        Action.raise (.stackOverflow vm.frames.size) vm
      else (do
        enter method args
        modify fun vm => { vm with loops := vm.loops + 1 }
        return (vm.frames.size, vm.stack.size) : Action (Nat × Nat)) vm := by
  unfold enterLoop
  rw [bind_run]
  show (ite (vm.loops ≥ vm.config.maxNativeDepth) _ _ : Action (Nat × Nat)) vm = _
  split <;> rfl

/-- The same for a loop of its own, which is counted. -/
theorem enterLoop_cases (method : Ref) (args : List Ref) (vm : Vm) :
    FailsSteadily (enterLoop method args) vm ∨
      ∃ f vm', enterLoop method args vm = .ok (vm.frames.size, vm.stack.size) vm' ∧
        vm'.context = vm.context.pushLoop f := by
  unfold FailsSteadily
  rw [enterLoop_run]
  split
  · exact .inl ⟨_, vm, rfl, rfl, nofun⟩
  · rcases enter_cases method args vm with h | ⟨f, vm', h, hctx⟩
    · exact .inl (h.bind _)
    · refine .inr ⟨f, _, bind_ok h, ?_⟩
      show ({ vm'.context with loops := vm'.context.loops + 1 } : Context) = _
      rw [hctx]
      rfl

/-- How a call begins: it fails or answers and leaves everything as it was, or it enters a loop. -/
inductive CallEnds (a : Action Reply) (vm : Vm) : Prop where
  | fails (h : FailsSteadily a vm)
  | answers {reply : Reply} {vm' : Vm} (h : a vm = .ok reply vm') (hctx : vm'.context = vm.context)
      (hr : ∀ floor base, reply ≠ .entered floor base)
  | enters {f : ActiveFrame} {vm' : Vm}
      (h : a vm = .ok (.entered vm.frames.size vm.stack.size) vm')
      (hctx : vm'.context = vm.context.pushLoop f)

theorem CallEnds.of_settled (a : Action Reply) [Settled a] (vm : Vm) : CallEnds a vm := by
  rcases Settled.cases a vm with h | ⟨reply, vm', h, hctx, hr⟩
  · exact .fails h
  · exact .answers h hctx hr

/-- A steady action in front makes no difference. -/
theorem CallEnds.bind {α : Type} (a : Action α) [Steady a] {f : α → Action Reply} {vm : Vm}
    (hf : ∀ x vm', CallEnds (f x) vm') : CallEnds (a >>= f) vm := by
  rcases Steady.cases a vm with h | ⟨x, vm', h, hctx⟩
  · exact .fails (h.bind f)
  · rcases hf x vm' with ⟨e, vm'', h', hctx', he⟩ | ⟨h', hctx', hr⟩ | ⟨h', hctx'⟩
    · exact .fails ⟨e, vm'', (bind_ok h).trans h', hctx'.trans hctx, he⟩
    · exact .answers ((bind_ok h).trans h') (hctx'.trans hctx) hr
    · have hs : vm'.stack = vm.stack := congrArg Context.stack hctx
      have hfs : vm'.frames = vm.frames := congrArg Context.frames hctx
      rw [hs, hfs] at h'
      exact .enters ((bind_ok h).trans h') (hctx'.trans (by rw [hctx]))

theorem callMethod_ends (method : Ref) (args : List Ref) (vm : Vm) :
    CallEnds (callMethod method args) vm := by
  unfold callMethod
  refine .bind _ fun p vm => ?_
  cases p with
  | method m =>
    dsimp only
    split
    · exact .of_settled _ vm
    · rcases enterLoop_cases method args vm with h | ⟨f, vm', h, hctx⟩
      · exact .fails (h.bind _)
      · exact .enters (bind_ok h) hctx
  | _ => exact .of_settled _ vm

theorem call_ends (callee : Ref) (args : List Ref) (vm : Vm) : CallEnds (call callee args) vm := by
  unfold call
  refine .bind _ fun f vm => ?_
  cases f with
  | method => exact callMethod_ends callee args vm
  | cls => exact .of_settled _ vm
  | arguments => exact .of_settled _ vm

end Vm
end ObjectMachine
