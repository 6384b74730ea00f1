import ObjectMachine.Proofs.Classes.Actions
import ObjectMachine.Proofs.Scopes.Moves

/-!
# ObjectMachine.Proofs.Classes.Sessions

Sessions leave every object of the kind of its class.

* `Fitting.performIn`, `Fitting.operation` — instructions, and operations of the embedding program.
* `Machine.step_classed`, `Session.StepBy.classed` — steps of calls and of sessions.
* `Vm.boot_classed` — new tasks.
* `Session.classed` — every run in which the embedding program makes no object by hand.
* `Session.follow?` — the run of a list of deeds, by which such a run can be computed.
-/

namespace ObjectMachine

open ObjectMachine.Action

namespace Fitting

variable {α : Type}

/-! ## Instructions -/

instance goto (addr : Nat) : Fitting (Vm.goto addr) :=
  changing fun _ => rfl

instance push (r : Ref) : Fitting (Vm.push r) :=
  changing fun _ => rfl

instance shrinking (height : Nat) :
    Fitting (modify fun vm => { vm with stack := vm.stack.shrink height } : Action Unit) :=
  changing fun _ => rfl

instance drop (n : Nat) : Fitting (Vm.drop n) := by
  unfold Vm.drop; infer_instance

instance pop : Fitting Vm.pop := by
  unfold Vm.pop; infer_instance

instance replace (n : Nat) (r : Ref) : Fitting (Vm.replace n r) := by
  unfold Vm.replace; infer_instance

instance storeName (name : String) (value : Ref) : Fitting (Vm.storeName name value) := by
  unfold Vm.storeName
  refine after fun found => ?_
  cases found with
  | some var => infer_instance
  | none =>
    refine after fun f => ?_
    split <;> infer_instance

instance makeClosure (code : Ref) : Fitting (Vm.makeClosure code) := by
  unfold Vm.makeClosure; infer_instance

instance fillHash (hash : Ref) (items : List Ref) : Fitting (Vm.fillHash hash items) := by
  induction items using Vm.fillHash.induct with
  | case1 k x rest ih => unfold Vm.fillHash; infer_instance
  | case2 items h =>
    unfold Vm.fillHash
    split
    · exact absurd rfl (h _ _ _)
    · infer_instance

instance executeArith (op : Arith) : Fitting (Vm.executeArith op) := by
  unfold Vm.executeArith; infer_instance

instance execute (op : Op) (i : Instr) : Fitting (Vm.execute op i) := by
  unfold Vm.execute
  cases op with
  | jumpIfTrue | jumpIfFalse =>
    refine after fun v => after fun b => ?_
    split <;> infer_instance
  | call =>
    refine after fun operands => ?_
    cases operands with
    | nil => infer_instance
    | cons callee args =>
      refine after fun bytecode => ?_
      split <;> infer_instance
  | _ => infer_instance

instance fetch : Fitting Vm.fetch := by
  unfold Vm.fetch
  refine after fun f => ?_
  split <;> infer_instance

instance perform : Fitting Vm.perform := by
  unfold Vm.perform
  refine after fun next => ?_
  cases next with
  | none => infer_instance
  | some i =>
    dsimp only
    split <;> infer_instance

instance leaving (base : Nat) :
    Fitting (modify fun vm => { vm with frames := vm.frames.pop, stack := vm.stack.shrink base } :
      Action Unit) :=
  changing fun _ => rfl

instance leaveFrame : Fitting Vm.leaveFrame := by
  unfold Vm.leaveFrame; infer_instance

instance ending : Fitting (modify fun vm => { vm with loops := vm.loops - 1 } : Action Unit) :=
  changing fun _ => rfl

instance returnFrom (floor : Nat) (v : Ref) : Fitting (Vm.returnFrom floor v) := by
  unfold Vm.returnFrom
  refine after fun _ => after fun vm => ?_
  split <;> infer_instance

instance performIn (floor : Nat) : Fitting (Vm.performIn floor) := by
  unfold Vm.performIn
  refine after fun flow => ?_
  cases flow <;> infer_instance

/-! ## Failures and answers -/

instance traceUnwinding (v : Ref) (floor : Nat) : Fitting (Machine.traceUnwinding v floor) := by
  unfold Machine.traceUnwinding
  refine after fun vm => ?_
  split <;> infer_instance

instance cutting (floor base : Nat) :
    Fitting (modify fun vm =>
      { vm with
        frames := vm.frames.shrink floor
        stack := vm.stack.shrink base
        loops := vm.loops - 1 } : Action Unit) :=
  changing fun _ => rfl

instance unwind (e : Error) (floor base : Nat) : Fitting (Machine.unwind e floor base) := by
  unfold Machine.unwind; infer_instance

instance answerValue (a : Machine.Answer) : Fitting (Machine.answerValue a) := by
  cases a <;> unfold Machine.answerValue <;> infer_instance

/-! ## Operations of the embedding program -/

instance zero (a : Action (List Ref)) [Fitting a] (operands : List Ref) :
    Fitting (Operands.zero a operands) := by
  unfold Operands.zero
  split <;> infer_instance

instance one (f : Ref → Action (List Ref)) [∀ x, Fitting (f x)] (operands : List Ref) :
    Fitting (Operands.one f operands) := by
  unfold Operands.one
  split <;> infer_instance

instance option (f : Option Ref → Action (List Ref)) [∀ x, Fitting (f x)] (operands : List Ref) :
    Fitting (Operands.option f operands) := by
  unfold Operands.option
  split <;> infer_instance

instance two (f : Ref → Ref → Action (List Ref)) [∀ x y, Fitting (f x y)] (operands : List Ref) :
    Fitting (Operands.two f operands) := by
  unfold Operands.two
  split <;> infer_instance

instance three (f : Ref → Ref → Ref → Action (List Ref)) [∀ x y z, Fitting (f x y z)]
    (operands : List Ref) : Fitting (Operands.three f operands) := by
  unfold Operands.three
  split <;> infer_instance

instance first (f : Ref → List Ref → Action (List Ref)) [∀ x xs, Fitting (f x xs)]
    (operands : List Ref) : Fitting (Operands.first f operands) := by
  unfold Operands.first
  split <;> infer_instance

instance single (a : Action Ref) [Fitting a] : Fitting (Operands.single a) := by
  unfold Operands.single; infer_instance

instance silent (a : Action α) [Fitting a] : Fitting (Operands.silent a) := by
  unfold Operands.silent; infer_instance

instance contentsOf (r : Ref) : Fitting (Operation.contentsOf r) := by
  unfold Operation.contentsOf; infer_instance

instance methodNamed (cls : Ref) (name : String) : Fitting (Operation.methodNamed cls name) := by
  unfold Operation.methodNamed; infer_instance

instance named (table : Vm → NameMap Ref) (name : String) :
    Fitting (Operation.named table name) := by
  unfold Operation.named; infer_instance

instance emptying : Fitting (modify fun vm => { vm with output := "" } : Action Unit) :=
  changing fun _ => rfl

instance takeOutput : Fitting Vm.takeOutput := by
  unfold Vm.takeOutput; infer_instance

instance operation (c : Operation) (operands : List Ref) : Fitting (c.run operands) := by
  cases c <;> unfold Operation.run <;> infer_instance

end Fitting

/-! ## Collections -/

namespace Vm

variable {vm u : Vm}

theorem Swept.classed (hc : vm.heap.Classed) (hs : vm.Swept u) : u.heap.Classed :=
  hc.remains hs.remains hs.sound

theorem collect_classed (hlive : vm.Live) (hc : vm.heap.Classed) :
    (final (collect vm)).heap.Classed := by
  obtain ⟨n, u, hrun, hswept⟩ := collect_swept hlive.heap hlive.roots
  rw [hrun]
  exact hswept.classed hc

theorem runNative_classed (hlive : vm.Live) (hc : vm.heap.Classed) (f : Native) (args : List Ref) :
    (final (runNative f args vm)).heap.Classed := by
  by_cases hcollect : f = .collect
  · subst hcollect
    cases args with
    | nil =>
      have hend := collect_classed hlive hc
      refine final_bind (P := fun vm => vm.heap.Classed) hend fun freed vm' hrun => ?_
      rw [hrun] at hend
      exact Fitting.classed (a := do return Reply.value (← newLength freed)) vm' hend
    | cons r rest => exact hc
  · exact (Fitting.runNative hcollect args).classed vm hc

/-- A call: of a native function, of a method with bytecode, of a class or of something else. -/
theorem call_classed (hlive : vm.Live) (hc : vm.heap.Classed) (callee : Ref) (args : List Ref) :
    (final (call callee args vm)).heap.Classed := by
  unfold call
  refine final_bind (P := fun vm => vm.heap.Classed) (Fitting.classed vm hc) fun f vm₁ hrun => ?_
  obtain rfl := Reads.of_ok hrun
  cases f with
  | cls => exact Fitting.classed vm₁ hc
  | arguments => exact Fitting.classed (a := do return Reply.value (← newArray args)) vm₁ hc
  | method =>
    dsimp only
    unfold callMethod
    refine final_bind (P := fun vm => vm.heap.Classed) (Fitting.classed vm₁ hc) fun p vm₂ hrun => ?_
    obtain rfl := Reads.of_ok hrun
    cases p with
    | method m =>
      dsimp only
      cases m.body with
      | native f => exact runNative_classed hlive hc f _
      | _ =>
        exact Fitting.classed (a := enterLoop callee args >>= fun heights =>
          pure (Reply.entered heights.1 heights.2)) vm₂ hc
    | _ => exact Fitting.classed (a := mismatch "method" callee) vm₂ hc

end Vm

/-! ## Steps -/

section Steps

variable {vm : Vm} {m : Machine} {konts : List Kont}

/-- What a machine goes on with after an action. -/
theorem Session.continueWith_classed {α : Type} {a : Action α} {f : α → Vm → Machine}
    (hc : (final (a vm)).heap.Classed) (hf : ∀ x vm, (f x vm).vm.Same vm) :
    (ofOutcome (Machine.continueWith a vm konts f)).vm.heap.Classed := by
  rw [(continueWith_same hf).heap]
  exact hc

namespace Machine

theorem returning_classed (hc : vm.heap.Classed) (v : Ref) (konts : List Kont) :
    (Session.ofOutcome (stepReturning v vm konts)).vm.heap.Classed := by
  rcases konts with _ | ⟨_ | _ | _ | _ | _, konts⟩
  case cons.operands | cons.attempt =>
    exact Session.continueWith_classed (Fitting.classed vm hc) fun _ vm => .refl vm
  all_goals exact hc

theorem raising_classed (hc : vm.heap.Classed) (e : Error) (konts : List Kont) :
    (Session.ofOutcome (stepRaising e vm konts)).vm.heap.Classed := by
  rcases konts with _ | ⟨_ | _ | _ | _ | _, konts⟩
  case cons.loop | cons.attempt | cons.guard =>
    exact Session.continueWith_classed (Fitting.classed vm hc) fun _ vm => .refl vm
  all_goals exact hc

theorem running_classed (hlive : vm.Live) (hc : vm.heap.Classed) (konts : List Kont) :
    (Session.ofOutcome (stepRunning vm konts)).vm.heap.Classed := by
  rcases konts with _ | ⟨_ | _ | _ | _ | _, konts⟩
  case cons.loop floor base =>
    obtain ⟨u, htick, hswept⟩ := Vm.tick_swept hlive.heap hlive.roots
    rw [stepRunning, continueWith_eq (Vm.stepLoop_after floor htick)]
    refine Session.continueWith_classed (Fitting.classed u (hswept.classed hc)) fun x vm => ?_
    cases x <;> exact .refl vm
  all_goals exact hc

theorem step_classed (hlive : m.vm.Live) (hc : m.vm.heap.Classed) :
    (Session.ofOutcome m.step).vm.heap.Classed := by
  unfold step
  cases m.mode with
  | running => exact running_classed hlive hc m.konts
  | calling callee args =>
    exact Session.continueWith_classed (Vm.call_classed hlive hc callee args) (ofReply_same m.konts)
  | constructing cls args =>
    exact Session.continueWith_classed (Fitting.classed m.vm hc) (ofReply_same m.konts)
  | returning v => exact returning_classed hc v m.konts
  | raising e => exact raising_classed hc e m.konts
  | waiting request => exact hc

end Machine

namespace Session

theorem Step.active_classed {t : Session} (hlive : m.vm.Live) (hc : m.vm.heap.Classed)
    (hst : (active m).Step t) : t.vm.heap.Classed := by
  cases hst with
  | step => exact Machine.step_classed hlive hc
  | answer a _ => exact continueWith_classed (Fitting.classed m.vm hc) fun _ vm => .refl vm
  | collectWithin _ =>
    have hend := Vm.collect_classed hlive hc
    unfold collecting
    cases hrun : Vm.collect m.vm <;> rw [hrun] at hend <;> exact hend

theorem begin_classed (hc : vm.heap.Classed) (entry : Entry) :
    (ofOutcome (entry.begin vm)).vm.heap.Classed := by
  cases entry with
  | bytecode method args =>
    exact continueWith_classed (Fitting.classed vm hc) fun _ vm => .refl vm
  | _ => exact hc

/-- A step, unless an object is made by hand. -/
theorem StepBy.classed {accepts : Vm → Operation → List Ref → Prop} {s t : Session}
    (hlive : s.Live) (hst : s.StepBy (fun _ _ => False) accepts t) (hc : s.vm.heap.Classed) :
    t.vm.heap.Classed := by
  cases hst with
  | operation c _ _ =>
    rw [ofResult_vm]
    exact Fitting.classed _ hc
  | alloc _ hp => exact hp.elim
  | roots _ => exact hc.withRoots _
  | collect =>
    rw [ofResult_vm]
    exact Vm.collect_classed hlive.vm_live hc
  | begin entry _ => exact begin_classed hc entry
  | active hst => exact hst.active_classed hlive.vm_live hc

end Session
end Steps

/-! ## Runs -/

namespace Vm

variable {vm : Vm}

theorem placeNative_classed (hc : vm.heap.Classed) (name : String) (f : Native) :
    (vm.heap.placeBuiltin .method (.method { name := name, body := .native f })).2.Classed :=
  hc.place (.builtin .method) (fun _ => rfl) (by rintro _ ⟨⟩)

/-- A new task is made from one with the bare built-in classes, method by method and global by
global. -/
theorem boot_induction {P : Vm → Prop} {registry : Registry} {config : Config} {heap : Nat}
    {task : TaskId} (hbare : P (bare registry config heap task))
    (hmethod : ∀ vm k name f, P vm → P (vm.bootMethod k name f))
    (hglobal : ∀ vm name f, P vm → P (vm.bootGlobal name f))
    (hlog : ∀ (vm : Vm) log, P vm → P { vm with log := log }) :
    P (boot registry config heap task) := by
  have hmethods := List.foldlRecOn (motive := P) Builtin.all
    (fun vm k => k.methods.foldl (fun vm (m : String × Native) => vm.bootMethod k m.1 m.2) vm)
    hbare fun vm hvm k _ => List.foldlRecOn k.methods _ hvm fun vm hvm m _ => hmethod vm k _ _ hvm
  have hglobals := List.foldlRecOn (motive := P) Native.globals
    (fun vm (g : String × Native) => vm.bootGlobal g.1 g.2)
    hmethods fun vm hvm g _ => hglobal vm _ _ hvm
  unfold boot
  dsimp only
  split
  · exact hlog _ _ hglobals
  · exact hglobals

theorem boot_classed (registry : Registry) (config : Config) (heap : Nat) (task : TaskId) :
    (boot registry config heap task).heap.Classed := by
  refine boot_induction (P := fun vm => vm.heap.Classed) (.boot heap config) ?_ ?_ ?_
  · intro vm k name f hc
    exact (placeNative_classed hc name f).update _ (Payload.mild_addMethod name _) fun p => by
      cases p <;> rfl
  · exact fun vm name f hc => placeNative_classed hc name f
  · exact fun vm log hc => hc

end Vm

/-- In every run in which the embedding program makes no object by hand, every object is of the kind
of its class. -/
theorem Session.classed {registry : Registry} {config : Config} {heap : Nat} {task : TaskId}
    {accepts : Vm → Operation → List Ref → Prop} {s : Session}
    (hs : (boot registry config heap task).ReachesBy (fun _ _ => False) accepts s) :
    s.Orderly ∧ s.vm.heap.Classed :=
  hs.invariant (I := fun vm => vm.heap.Classed) (Vm.boot_classed registry config heap task)
    fun _ _ => Session.StepBy.classed

/-! ## Runs that can be computed -/

/-- Whether a question has an answer of some kind. -/
def okAnd {α : Type} (x : Except Fatal α) (p : α → Bool) : Bool :=
  match x with
  | .ok a => p a
  | .error _ => false

theorem okAnd_eq_true {α : Type} {x : Except Fatal α} {p : α → Bool} :
    okAnd x p = true ↔ ∃ a, x = .ok a ∧ p a = true := by
  cases x <;> simp [okAnd]

namespace Session

/-- What an embedding program does with a task, or lets it do. -/
inductive Deed where
  | operate (c : Operation) (operands : List Ref)
  | call (entry : Entry)
  /-- The call takes one step. -/
  | step

/-- Where some deeds lead, if each of them is possible and uses live references only. -/
def follow? : List Deed → Session → Option Session
  | [], s => some s
  | .operate c operands :: rest, .idle vm =>
    if operands.all vm.heap.contains then follow? rest (.ofResult (c.run operands vm)) else none
  | .call entry :: rest, .idle vm =>
    if entry.refs.all vm.heap.contains then follow? rest (.ofOutcome (entry.begin vm)) else none
  | .step :: rest, .active m => follow? rest (.ofOutcome m.step)
  | _, _ => none

theorem follow?_reaches {fits : Vm → Payload → Prop} {accepts : Vm → Operation → List Ref → Prop}
    {deeds : List Deed} {s t : Session}
    (haccepts : ∀ c operands, .operate c operands ∈ deeds → ∀ vm, accepts vm c operands)
    (h : follow? deeds s = some t) : s.ReachesBy fits accepts t := by
  induction deeds generalizing s with
  | nil =>
    cases h
    exact .refl
  | cons deed rest ih =>
    have hrest : ∀ {s'}, follow? rest s' = some t → s'.ReachesBy fits accepts t := fun h =>
      ih (fun c operands hmem => haccepts c operands (List.mem_cons_of_mem deed hmem)) h
    cases s with
    | idle vm =>
      cases deed with
      | operate c operands =>
        obtain ⟨hlive, h⟩ := Option.ite_none_right_eq_some.mp h
        have haccept := haccepts c operands List.mem_cons_self vm
        exact .head (.operation c (List.all_eq_true.mp hlive) haccept) (hrest h)
      | call entry =>
        obtain ⟨hlive, h⟩ := Option.ite_none_right_eq_some.mp h
        exact .head (.begin entry (List.all_eq_true.mp hlive)) (hrest h)
      | step => cases h
    | active m =>
      cases deed with
      | step => exact .head (.active .step) (hrest h)
      | _ => cases h
    | ended vm stop => cases deed <;> cases h

end Session
end ObjectMachine
