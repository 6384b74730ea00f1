import ObjectMachine.Proofs.Vm.Rules.Data

/-!
# ObjectMachine.Proofs.Vm.Rules.Calls

Frames, calls and instructions obey the rules.

Two things do not: a collection, and what fills hashes, which obeys only the rules that writing in a
hash obeys.

* `Obeys.activate`, `Obeys.enterLoop` — frames.
* `Obeys.runNative`, `Obeys.construct`, `Obeys.call` — calls of anything but a native function that
  collects or fills a hash.
* `Obeys.execute`, `Obeys.performIn` — instructions.
* `Obeys.unwind`, `Obeys.answerValue` — failures and answers.
-/

namespace ObjectMachine

open ObjectMachine.Action

namespace Obeys

variable {P : (α : Type) → Action α → Prop}

section Rule

variable [Rule P] {α : Type}

/-! ## Frames -/

instance callee (method : Ref) : Obeys P (Vm.callee method) := by
  unfold Vm.callee
  refine inspect _ (fun p => ?_) fun b p => by cases p <;> rfl
  cases p with
  | method m =>
    dsimp only
    split <;> infer_instance
  | _ => infer_instance

instance isBytecode (r : Ref) : Obeys P (Vm.isBytecode r) := by
  unfold Vm.isBytecode
  refine inspect _ (fun p => ?_) fun b p => by cases p <;> rfl
  cases p with
  | method m =>
    dsimp only
    split <;> infer_instance
  | _ => infer_instance

instance makeLocals (bindings : NameMap Ref) (names : List String) (locals : NameMap Ref) :
    Obeys P (Vm.makeLocals bindings names locals) := by
  induction names generalizing locals with
  | nil => unfold Vm.makeLocals; infer_instance
  | cons name rest ih =>
    unfold Vm.makeLocals
    dsimp only
    split <;> infer_instance

instance allocFrame (method : Ref) (unit : CodeUnit) (bindings : NameMap Ref) :
    Obeys P (Vm.allocFrame method unit bindings) := by
  unfold Vm.allocFrame; infer_instance

instance buildFrame (method : Ref) : Obeys P (Vm.buildFrame method) := by
  unfold Vm.buildFrame; infer_instance

instance bindParams (locals : NameMap Ref) (names : List String) (values : List Ref) :
    Obeys P (Vm.bindParams locals names values) := by
  induction names generalizing values with
  | nil => unfold Vm.bindParams; infer_instance
  | cons name names ih =>
    cases values with
    | nil => unfold Vm.bindParams; infer_instance
    | cons value values =>
      unfold Vm.bindParams
      dsimp only
      split <;> infer_instance

/-- The trace of a new frame tells how many there are. -/
instance entering (unit : CodeUnit) : Obeys P
    (Vm.trace Channels.vm "vm" fun vm => s!"enter {unit.name} (depth {vm.frames.size + 1})") :=
  trace _ _ fun r b vm => by rw [Vm.credit_frames_size]

instance furnish (method : Ref) (c : Vm.Callee) (unit : CodeUnit) (values : List Ref) :
    Obeys P (Vm.furnish method c unit values) := by
  unfold Vm.furnish; infer_instance

instance prepare (method : Ref) (args : List Ref) : Obeys P (Vm.prepare method args) := by
  unfold Vm.prepare
  refine after fun c => after fun unit => ?_
  dsimp only
  split <;> infer_instance

instance activate (method : Ref) (args : List Ref) : Obeys P (Vm.activate method args) := by
  rw [Vm.activate_eq]
  refine get_bind (fun vm => ?_) fun r b vm _ => ?_
  · split <;> infer_instance
  · rw [Vm.credit_callDepth, Vm.credit_frames_size]
    rfl

instance enter (method : Ref) (args : List Ref) : Obeys P (Vm.enter method args) :=
  ⟨Rule.enter method args (activate method args).holds⟩

instance counting : Obeys P (modify fun vm => { vm with loops := vm.loops + 1 } : Action Unit) :=
  change (fun _ => rfl) fun _ _ _ => rfl

instance enterLoop (method : Ref) (args : List Ref) : Obeys P (Vm.enterLoop method args) := by
  unfold Vm.enterLoop
  refine get_bind (fun vm => ?_) fun r b vm _ => ?_
  · dsimp only
    split <;> infer_instance
  · rw [Vm.credit_frames_size]
    rfl

/-! ## Native functions -/

instance displayLine (values : List Ref) : Obeys P (Vm.displayLine values) := by
  unfold Vm.displayLine; infer_instance

instance superOf (r : Ref) : Obeys P (Vm.superOf r) := by
  unfold Vm.superOf
  refine inspect _ (fun p => ?_) fun b p => by cases p <;> rfl
  cases p <;> infer_instance

instance classNewFrom (args : List Ref) : Obeys P (Vm.classNewFrom args) := by
  unfold Vm.classNewFrom
  split
  · refine after fun name => after fun super => ?_
    refine inspect _ (fun p => ?_) fun b p => by cases p <;> rfl
    cases p with
    | int n =>
      dsimp only
      split <;> infer_instance
    | _ => infer_instance
  · infer_instance

instance expectClass (r : Ref) : Obeys P (Vm.expectClass r) := by
  unfold Vm.expectClass
  refine inspect _ (fun p => ?_) fun b p => by cases p <;> rfl
  cases p <;> infer_instance

instance defineFrom (args : List Ref) : Obeys P (Vm.defineFrom args) := by
  unfold Vm.defineFrom
  split <;> infer_instance

instance requestSpawn (callable : Ref) : Obeys P (Vm.requestSpawn callable) := by
  unfold Vm.requestSpawn; infer_instance

instance sending (t : TaskId) : Obeys P
    (Vm.trace Channels.task "task" fun vm => s!"task {vm.task.number} -> task {t.number}") :=
  trace _ _ fun _ _ _ => rfl

instance requestSend (target value : Ref) : Obeys P (Vm.requestSend target value) := by
  unfold Vm.requestSend; infer_instance

instance requestJoin (target : Ref) : Obeys P (Vm.requestJoin target) := by
  unfold Vm.requestJoin
  refine after fun t => get_bind (fun vm => ?_) fun _ _ _ _ => rfl
  dsimp only
  split
  · infer_instance
  · split <;> infer_instance

instance arrayPush (array item : Ref) : Obeys P (Vm.arrayPush array item) := by
  unfold Vm.arrayPush
  refine inspect _ (fun p => ?_) fun b p => by cases p <;> rfl
  cases p <;> infer_instance

instance arrayPop (array : Ref) : Obeys P (Vm.arrayPop array) := by
  unfold Vm.arrayPop
  refine inspect _ (fun p => ?_) fun b p => by cases p <;> rfl
  cases p with
  | array items =>
    refine after fun _ => ?_
    split <;> infer_instance
  | _ => infer_instance

instance setSlot (obj : Ref) (i : Nat) (value : Ref) : Obeys P (Vm.setSlot obj i value) := by
  unfold Vm.setSlot
  refine inspect _ (fun p => ?_) fun b p => by cases p <;> rfl
  cases p with
  | object slots =>
    dsimp only
    split <;> infer_instance
  | _ => infer_instance

instance getSlot? (obj : Ref) (i : Nat) : Obeys P (Vm.getSlot? obj i) := by
  unfold Vm.getSlot?
  refine inspect _ (fun p => ?_) fun b p => by cases p <;> rfl
  cases p <;> infer_instance

instance printing (line : String) :
    Obeys P (modify fun vm => { vm with output := vm.output ++ line ++ "\n" } : Action Unit) :=
  change (fun _ => rfl) fun _ _ _ => rfl

/-- Of the native functions, one collects and one fills a hash. -/
theorem runNative {f : Native} (hcollect : f ≠ .collect) (hset : f ≠ .hashSet) (args : List Ref) :
    Obeys P (Vm.runNative f args) := by
  unfold Vm.runNative
  split
  case h_6 => exact get_bind (fun _ => inferInstance) fun _ _ _ _ => rfl
  case h_8 => exact absurd rfl hcollect
  case h_20 => exact absurd rfl hset
  case h_30 =>
    refine get_bind (fun _ => inferInstance) fun r b vm _ => ?_
    rw [Vm.depth, Vm.credit_frames_size]
    rfl
  case h_31 =>
    refine get_bind (fun _ => inferInstance) fun r b vm _ => ?_
    rw [Vm.credit_backtrace]
  case h_32 =>
    refine inspect _ (fun p => ?_) fun b p => by cases p <;> rfl
    cases p with
    | int n =>
      refine after fun found => ?_
      cases found <;> infer_instance
    | _ => infer_instance
  case h_33 =>
    refine inspect _ (fun p => ?_) fun b p => by cases p <;> rfl
    cases p with
    | int n =>
      refine after fun done => ?_
      split <;> infer_instance
    | _ => infer_instance
  all_goals infer_instance

/-! ## Constructors -/

instance constructObject (cls : Ref) (args : List Ref) : Obeys P (Vm.constructObject cls args) := by
  unfold Vm.constructObject
  refine after fun c => ?_
  dsimp only
  split
  · infer_instance
  · refine after fun nothing => after fun obj => after fun found => ?_
    cases found with
    | some init => infer_instance
    | none =>
      dsimp only
      split <;> infer_instance

instance toInt (r : Ref) : Obeys P (Vm.toInt r) := by
  unfold Vm.toInt
  refine inspect _ (fun p => ?_) fun b p => by cases p <;> rfl
  cases p with
  | str b =>
    dsimp only
    split <;> infer_instance
  | _ => infer_instance

instance toFloat (r : Ref) : Obeys P (Vm.toFloat r) := by
  unfold Vm.toFloat
  refine inspect _ (fun p => ?_) fun b p => by cases p <;> rfl
  cases p with
  | str b =>
    dsimp only
    split <;> infer_instance
  | _ => infer_instance

instance runInit (f : InitFn) (cls : Ref) (args : List Ref) : Obeys P (Vm.runInit f cls args) := by
  unfold Vm.runInit
  split
  case h_15 =>
    refine inspect _ (fun p => ?_) fun b p => by cases p <;> rfl
    cases p <;> infer_instance
  all_goals infer_instance

instance construct (cls : Ref) (args : List Ref) : Obeys P (Vm.construct cls args) := by
  unfold Vm.construct; infer_instance

end Rule

/-! ## Calls -/

end Obeys

namespace Vm

/-- A call in which native functions do what `run` says. -/
def callBy (run : Native → List Ref → Action Reply) (callee : Ref) (args : List Ref) :
    Action Reply := do
  match ← require .call Slots.call callee with
  | .method =>
    match ← payload callee with
    | .method m =>
      match m.body with
      | .native f => run f (m.receiver.toList ++ args)
      | _ =>
        let (floor, base) ← enterLoop callee args
        return .entered floor base
    | _ => mismatch "method" callee
  | .cls => construct callee args
  | .arguments => return .value (← newArray args)

theorem call_eq (callee : Ref) (args : List Ref) : call callee args = callBy runNative callee args :=
  rfl

/-- The object is a method with a native body. -/
def RunsNatively (vm : Vm) (callee : Ref) (f : Native) : Prop :=
  ∃ m, vm.heap.payload callee = .ok (.method m) ∧ m.body = .native f

/-- Only the native function that is called matters. -/
theorem callBy_congr {run run' : Native → List Ref → Action Reply} {vm : Vm} {callee : Ref}
    (args : List Ref) (h : ∀ f, vm.RunsNatively callee f → run f = run' f) :
    callBy run callee args vm = callBy run' callee args vm := by
  unfold callBy
  rcases Reads.cases (require .call Slots.call callee) vm with ⟨f, hf⟩ | ⟨e, hf⟩
  · rw [bind_ok hf, bind_ok hf]
    cases f with
    | method =>
      dsimp only
      rcases Reads.cases (payload callee) vm with ⟨p, hp⟩ | ⟨e, hp⟩
      · rw [bind_ok hp, bind_ok hp]
        cases p with
        | method m =>
          dsimp only
          cases hbody : m.body with
          | native f =>
            exact congrFun (congrFun (h f ⟨m, (payload_eq_ok.mp hp).1, hbody⟩) _) vm
          | _ => rfl
        | _ => rfl
      · rw [bind_error hp, bind_error hp]
    | _ => rfl
  · rw [bind_error hf, bind_error hf]

end Vm

namespace Obeys

variable {P : (α : Type) → Action α → Prop}

section Rule

variable [Rule P] {α : Type}

theorem callBy {run : Native → List Ref → Action Reply} (hrun : ∀ f args, Obeys P (run f args))
    (callee : Ref) (args : List Ref) : Obeys P (Vm.callBy run callee args) := by
  unfold Vm.callBy
  refine after fun f => ?_
  cases f with
  | method =>
    refine inspect _ (fun p => ?_) fun b p => by cases p <;> rfl
    cases p with
    | method m =>
      dsimp only
      split
      · exact hrun _ _
      · infer_instance
    | _ => infer_instance
  | cls => infer_instance
  | arguments => infer_instance

/-! ## The operand stack and names -/

instance goto (addr : Nat) : Obeys P (Vm.goto addr) := by
  refine change (fun _ => rfl) fun r b vm => ?_
  have hframes : ((vm.frames.map (ActiveFrame.credit r b)).modify (vm.frames.size - 1)
      fun f => { f with ip := addr }) =
      (vm.frames.modify (vm.frames.size - 1) fun f => { f with ip := addr }).map
        (ActiveFrame.credit r b) := by
    refine Array.ext_getElem? fun i => ?_
    simp only [Array.getElem?_modify, Array.getElem?_map]
    by_cases hi : vm.frames.size - 1 = i
    · simp only [hi, if_true]
      cases vm.frames[i]? with
      | none => rfl
      | some f => by_cases hf : f.frame = r <;> simp [ActiveFrame.credit, hf]
    · simp only [hi, if_false]
  simp only [Vm.credit, Array.size_map, hframes]

instance need (n : Nat) : Obeys P (Vm.need n) := by
  unfold Vm.need
  refine top_bind (fun f => ?_) fun _ _ => rfl
  refine get_bind (fun vm => ?_) fun _ _ _ _ => rfl
  split <;> infer_instance

instance push (r : Ref) : Obeys P (Vm.push r) :=
  change (fun _ => rfl) fun _ _ _ => rfl

instance below (n : Nat) : Obeys P (Vm.below n) := by
  unfold Vm.below
  refine get_bind (fun vm => ?_) fun _ _ _ _ => rfl
  dsimp only
  split <;> infer_instance

instance shrinking (height : Nat) :
    Obeys P (modify fun vm => { vm with stack := vm.stack.shrink height } : Action Unit) :=
  change (fun _ => rfl) fun _ _ _ => rfl

instance drop (n : Nat) : Obeys P (Vm.drop n) := by
  unfold Vm.drop; infer_instance

instance peek (n : Nat) : Obeys P (Vm.peek n) := by
  unfold Vm.peek
  refine after fun _ => after fun height => get_bind (fun vm => ?_) fun _ _ _ _ => rfl
  split <;> infer_instance

instance pop : Obeys P Vm.pop := by
  unfold Vm.pop; infer_instance

instance peekMany (n : Nat) : Obeys P (Vm.peekMany n) := by
  unfold Vm.peekMany
  exact after fun _ => after fun height => get_bind (fun _ => inferInstance) fun _ _ _ _ => rfl

instance replace (n : Nat) (r : Ref) : Obeys P (Vm.replace n r) := by
  unfold Vm.replace; infer_instance

instance constant (index : UInt8) : Obeys P (Vm.constant index) := by
  unfold Vm.constant
  refine top_bind (fun f => ?_) fun _ _ => rfl
  refine inspect _ (fun p => ?_) fun b p => by cases p <;> rfl
  cases p with
  | code c =>
    dsimp only
    split <;> infer_instance
  | _ => infer_instance

instance nameAt (index : UInt8) : Obeys P (Vm.nameAt index) := by
  unfold Vm.nameAt
  refine top_bind (fun f => ?_) fun _ _ => rfl
  split <;> infer_instance

instance frameVar? (frame : Ref) (name : String) : Obeys P (Vm.frameVar? frame name) := by
  unfold Vm.frameVar?
  refine inspect _ (fun p => ?_) fun b p => by cases p <;> rfl
  cases p <;> infer_instance

instance moduleVar? (module : Option Ref) (name : String) :
    Obeys P (Vm.moduleVar? module name) := by
  unfold Vm.moduleVar?
  cases module with
  | none => infer_instance
  | some m =>
    refine inspect _ (fun p => ?_) fun b p => by cases p <;> rfl
    cases p <;> infer_instance

instance scopedVar? (name : String) : Obeys P (Vm.scopedVar? name) := by
  unfold Vm.scopedVar?
  refine top_bind (fun f => after fun found => ?_) fun _ _ => rfl
  cases found <;> infer_instance

instance loadName (name : String) : Obeys P (Vm.loadName name) := by
  unfold Vm.loadName
  refine after fun found => ?_
  cases found with
  | some var =>
    refine after fun value => ?_
    cases value <;> infer_instance
  | none =>
    refine get_bind (fun vm => ?_) fun _ _ _ _ => rfl
    split
    · infer_instance
    · split <;> infer_instance

instance storeName (name : String) (value : Ref) : Obeys P (Vm.storeName name value) := by
  unfold Vm.storeName
  refine after fun found => ?_
  cases found with
  | some var => infer_instance
  | none =>
    refine top_bind (fun f => ?_) fun _ _ => rfl
    split
    · refine after fun var => inspect _ (fun _ => inferInstance) fun _ _ => rfl
    · infer_instance

instance captureVars (names : List String) (vars : NameMap Ref) :
    Obeys P (Vm.captureVars names vars) := by
  induction names generalizing vars with
  | nil => unfold Vm.captureVars; infer_instance
  | cons name rest ih =>
    unfold Vm.captureVars
    refine after fun found => ?_
    cases found <;> infer_instance

instance makeClosure (code : Ref) : Obeys P (Vm.makeClosure code) := by
  unfold Vm.makeClosure
  exact after fun unit => top_bind (fun _ => inferInstance) fun _ _ => rfl

instance executeArith (op : Arith) : Obeys P (Vm.executeArith op) := by
  unfold Vm.executeArith; infer_instance

/-! ## Instructions -/

/-- Of the instructions, one fills a hash. -/
theorem execute {op : Op} (hop : op ≠ .makeHash) (i : Instr) : Obeys P (Vm.execute op i) := by
  unfold Vm.execute
  cases op with
  | makeHash => exact absurd rfl hop
  | jumpIfTrue | jumpIfFalse =>
    refine after fun v => after fun b => ?_
    split <;> infer_instance
  | call =>
    refine after fun operands => ?_
    cases operands with
    | nil => infer_instance
    | cons callee args =>
      refine after fun bytecode => ?_
      split <;> infer_instance
  | _ => infer_instance

instance fetch : Obeys P Vm.fetch := by
  unfold Vm.fetch
  refine top_bind (fun f => ?_) fun _ _ => rfl
  split <;> infer_instance

instance leaving (base : Nat) :
    Obeys P (modify fun vm => { vm with frames := vm.frames.pop, stack := vm.stack.shrink base } :
      Action Unit) :=
  change (fun _ => rfl) fun r b vm => by simp [Vm.credit]

instance leaveFrame : Obeys P Vm.leaveFrame := by
  unfold Vm.leaveFrame
  exact top_bind (fun _ => inferInstance) fun _ _ => rfl

instance ending : Obeys P (modify fun vm => { vm with loops := vm.loops - 1 } : Action Unit) :=
  change (fun _ => rfl) fun _ _ _ => rfl

instance returnFrom (floor : Nat) (v : Ref) : Obeys P (Vm.returnFrom floor v) := by
  unfold Vm.returnFrom
  refine after fun _ => get_bind (fun vm => ?_) fun r b vm _ => ?_
  · split <;> infer_instance
  · rw [Vm.credit_frames_size]

/-! ## Failures and answers -/

instance traceUnwinding (v : Ref) (floor : Nat) : Obeys P (Machine.traceUnwinding v floor) := by
  unfold Machine.traceUnwinding
  refine get_bind (fun vm => ?_) fun _ _ _ _ => rfl
  split <;> infer_instance

instance cutting (floor base : Nat) :
    Obeys P (modify fun vm =>
      { vm with
        frames := vm.frames.shrink floor
        stack := vm.stack.shrink base
        loops := vm.loops - 1 } : Action Unit) :=
  change (fun _ => rfl) fun r b vm => by simp [Vm.credit]

instance unwind (e : Error) (floor base : Nat) : Obeys P (Machine.unwind e floor base) := by
  unfold Machine.unwind; infer_instance

end Rule

/-! ## Hashes -/

section HashRule

variable [HashRule P]

/-- With hashes, one native function is left. -/
theorem runNativeFilling {f : Native} (hcollect : f ≠ .collect) (args : List Ref) :
    Obeys P (Vm.runNative f args) := by
  by_cases hset : f = .hashSet
  · subst hset
    unfold Vm.runNative
    split
    case h_20 => infer_instance
    all_goals first | contradiction | infer_instance
  · exact runNative hcollect hset args

instance fillHash (hash : Ref) (items : List Ref) : Obeys P (Vm.fillHash hash items) := by
  induction items using Vm.fillHash.induct with
  | case1 k x rest ih => unfold Vm.fillHash; infer_instance
  | case2 items h =>
    unfold Vm.fillHash
    split
    · exact absurd rfl (h _ _ _)
    · infer_instance

instance executeFilling (op : Op) (i : Instr) : Obeys P (Vm.execute op i) := by
  by_cases hop : op = .makeHash
  · subst hop
    unfold Vm.execute
    infer_instance
  · exact execute hop i

instance perform : Obeys P Vm.perform := by
  unfold Vm.perform
  refine after fun next => ?_
  cases next with
  | none => infer_instance
  | some i =>
    dsimp only
    split
    · infer_instance
    · exact top_bind (fun _ => inferInstance) fun _ _ => rfl

instance performIn (floor : Nat) : Obeys P (Vm.performIn floor) := by
  unfold Vm.performIn
  refine after fun flow => ?_
  cases flow <;> infer_instance

instance answerValue (a : Machine.Answer) : Obeys P (Machine.answerValue a) := by
  cases a <;> unfold Machine.answerValue <;> infer_instance

end HashRule
end Obeys
end ObjectMachine
