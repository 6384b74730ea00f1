import ObjectMachine.Proofs.Vm.Quiet

/-!
# ObjectMachine.Proofs.Vm.Quiet.Data

Making values, and the operators on them, are quiet actions.
-/

namespace ObjectMachine
namespace Quiet

open ObjectMachine.Action Vm

variable {α : Type}

/-! ## Objects, classes and names -/

instance wrongKind (r : Ref) (kind required : String) :
    Quiet (Action.fatal (.wrongKind r kind required) : Action α) :=
  fatal nofun

instance bindsNoMethod (r : Ref) (kind : String) :
    Quiet (Action.fatal (.bindsNoMethod r kind) : Action α) :=
  fatal nofun

theorem traceOf {on : Channels → Bool} {channel : String} {text : Vm → String}
    (h : ∀ vm l, l.Fits vm → text (vm.relay l) = text vm) : Quiet (Vm.trace on channel text) := by
  refine changing (fun vm => ?_) fun vm l hl => ?_
  · split <;> rfl
  · show (if on vm.config.trace = true then _ else _) = _
    rw [h vm l hl]
    split <;> rfl

instance trace (on : Channels → Bool) (channel text : String) :
    Quiet (Vm.trace on channel fun _ => text) :=
  traceOf fun _ _ _ => rfl

instance alloc (cls : Ref) (p : Payload) : Quiet (Vm.alloc cls p) where
  context vm := by
    unfold Vm.alloc
    cases vm.heap.checkOwn cls with
    | error e => rfl
    | ok _ => simp [final, Vm.context]
  plain vm n height vm' h := by
    unfold Vm.alloc Heap.checkOwn at h
    by_cases hid : cls.heap = vm.heap.id
    · simp [hid] at h
    · simp [hid] at h
  apart vm l _ := by
    unfold Vm.alloc
    show (match vm.heap.checkOwn cls with
      | .error e => EStateM.Result.error (Stop.fatal e) (vm.relay l)
      | .ok () => _) = _
    cases vm.heap.checkOwn cls <;> rfl

instance payload (r : Ref) : Quiet (Vm.payload r) := by
  unfold Vm.payload; infer_instance

instance className (r : Ref) : Quiet (Vm.className r) := by
  unfold Vm.className; infer_instance

instance mismatch (expected : String) (found : Ref) :
    Quiet (Vm.mismatch expected found : Action α) := by
  unfold Vm.mismatch; infer_instance

instance new (k : Builtin) (p : Payload) : Quiet (Vm.new k p) :=
  reading (f := fun vm => Vm.alloc (k.ref vm.heap.id) p) (fun _ _ _ => rfl) inferInstance

instance nil : Quiet Vm.nil :=
  reading (f := fun vm => pure (nilRef vm.heap.id)) (fun _ _ _ => rfl) inferInstance

instance bool (b : Bool) : Quiet (Vm.bool b) :=
  reading (f := fun vm => pure (boolRef vm.heap.id b)) (fun _ _ _ => rfl) inferInstance

instance newInt (i : Int64) : Quiet (Vm.newInt i) := new _ _

instance newFloat (x : Float) : Quiet (Vm.newFloat x) := new _ _

instance newBytes (b : ByteArray) : Quiet (Vm.newBytes b) := new _ _

instance newStr (s : String) : Quiet (Vm.newStr s) := newBytes _

instance newArray (items : List Ref) : Quiet (Vm.newArray items) := new _ _

instance newHash : Quiet Vm.newHash := new _ _

instance newVar (value : Option Ref) : Quiet (Vm.newVar value) := new _ _

instance newLength (n : Nat) : Quiet (Vm.newLength n) := newInt _

instance newStrs (ss : List String) : Quiet (Vm.newStrs ss) := by
  induction ss with
  | nil => exact return_ []
  | cons s rest ih => unfold Vm.newStrs; infer_instance

instance hashSet (hash key value : Ref) : Quiet (Vm.hashSet hash key value) := by
  unfold Vm.hashSet
  refine @bind _ _ _ _ _ fun p => ?_
  cases p with
  | hash t =>
    refine @bind _ _ _ _ _ fun found => ?_
    cases found <;> infer_instance
  | _ => infer_instance

instance allocError (message : String) (cause : Option Ref) (lines : List String) :
    Quiet (Vm.allocError message cause lines) := new _ _

instance newError (message : String) (cause : Option Ref) : Quiet (Vm.newError message cause) :=
  reading (f := fun vm => Vm.allocError message cause vm.backtrace)
    (fun _ _ hl => by rw [hl.backtrace]) inferInstance

instance newMethod (name : String) (body : Body) (receiver : Option Ref) :
    Quiet (Vm.newMethod name body receiver) := new _ _

instance newNative (name : String) (f : Native) : Quiet (Vm.newNative name f) := newMethod _ _ _

instance bindMethod (method receiver : Ref) : Quiet (Vm.bind method receiver) := by
  unfold Vm.bind
  refine @bind _ _ _ _ _ fun p => ?_
  cases p <;> infer_instance

instance newTask (t : TaskId) : Quiet (Vm.newTask t) :=
  reading (f := fun vm => Vm.new .task (.task ⟨t, t == vm.task⟩)) (fun _ _ _ => rfl) inferInstance

instance currentTask : Quiet Vm.currentTask :=
  reading (f := fun vm => Vm.newTask vm.task) (fun _ _ _ => rfl) inferInstance

mutual

theorem loadCode : ∀ unit, Quiet (Vm.loadCode unit)
  | ⟨name, code, consts, names, locals, freevars, arity⟩ => by
    have := loadConstants consts
    unfold Vm.loadCode
    infer_instance

theorem loadConstant : ∀ c, Quiet (Vm.loadConstant c)
  | .nil => by unfold Vm.loadConstant; infer_instance
  | .int _ => by unfold Vm.loadConstant; infer_instance
  | .float _ => by unfold Vm.loadConstant; infer_instance
  | .str _ => by unfold Vm.loadConstant; infer_instance
  | .code u => by
    unfold Vm.loadConstant
    exact loadCode u

theorem loadConstants : ∀ cs, Quiet (Vm.loadConstants cs)
  | [] => by unfold Vm.loadConstants; infer_instance
  | c :: rest => by
    have := loadConstant c
    have := loadConstants rest
    unfold Vm.loadConstants
    infer_instance

end

attribute [instance] loadCode

instance newBytecodeMethod (unit : CodeUnit) (module : Option Ref) :
    Quiet (Vm.newBytecodeMethod unit module) := by
  unfold Vm.newBytecodeMethod; infer_instance

instance codeUnit (code : Ref) : Quiet (Vm.codeUnit code) := by
  unfold Vm.codeUnit
  refine @bind _ _ _ _ _ fun p => ?_
  cases p <;> infer_instance

instance registering (name : String) (r : Ref) :
    Quiet (modify fun vm => { vm with classes := vm.classes.insert name r } : Action Unit) :=
  changing (fun _ => rfl) fun _ _ _ => rfl

instance addClass (c : Class) : Quiet (Vm.addClass c) := by
  unfold Vm.addClass; infer_instance

instance classNew (name : String) (super : Option Ref) (size : Nat) :
    Quiet (Vm.classNew name super size) := by
  unfold Vm.classNew
  cases super <;> dsimp only <;> infer_instance

instance defineMethod (cls : Ref) (name : String) (method : Ref) :
    Quiet (Vm.defineMethod cls name method) := by
  unfold Vm.defineMethod; infer_instance

instance defineNative (cls : Ref) (name : String) (f : Native) :
    Quiet (Vm.defineNative cls name f) := by
  unfold Vm.defineNative; infer_instance

instance setGlobal (name : String) (value : Ref) : Quiet (Vm.setGlobal name value) :=
  changing (fun _ => rfl) fun _ _ _ => rfl

instance readVar (var : Ref) : Quiet (Vm.readVar var) := by
  unfold Vm.readVar
  refine @bind _ _ _ _ _ fun p => ?_
  cases p <;> infer_instance

instance writeVar (var value : Ref) : Quiet (Vm.writeVar var value) := by
  unfold Vm.writeVar
  refine @bind _ _ _ _ _ fun p => ?_
  cases p <;> infer_instance

instance newMember (module : Ref) (name : String) (member : Member) :
    Quiet (Vm.newMember module name member) := by
  unfold Vm.newMember
  cases member <;> infer_instance

instance importMembers (module : Ref) (members : List (String × Member)) :
    Quiet (Vm.importMembers module members) := by
  induction members with
  | nil => exact return_ ()
  | cons m rest ih => unfold Vm.importMembers; infer_instance

instance importing (name : String) (module : Ref) :
    Quiet (modify fun vm => { vm with modules := vm.modules.insert name module } : Action Unit) :=
  changing (fun _ => rfl) fun _ _ _ => rfl

instance importModule (name : String) : Quiet (Vm.importModule name) := by
  unfold Vm.importModule
  refine get_bind (fun _ _ _ => rfl) fun vm => ?_
  split
  · infer_instance
  · refine get_bind (fun _ _ _ => rfl) fun vm' => ?_
    split <;> infer_instance

instance raisedValue (e : Error) : Quiet (Vm.raisedValue e) := by
  unfold Vm.raisedValue
  split <;> infer_instance

/-! ## Operators -/

instance numberOf (r : Ref) : Quiet (Vm.numberOf r) := by
  unfold Vm.numberOf
  refine @bind _ _ _ _ _ fun p => ?_
  split <;> infer_instance

instance intOf (r : Ref) : Quiet (Vm.intOf r) := by
  unfold Vm.intOf
  refine @bind _ _ _ _ _ fun p => ?_
  cases p <;> infer_instance

instance bytesOf (r : Ref) : Quiet (Vm.bytesOf r) := by
  unfold Vm.bytesOf
  refine @bind _ _ _ _ _ fun p => ?_
  cases p <;> infer_instance

instance textOf (r : Ref) : Quiet (Vm.textOf r) := by
  unfold Vm.textOf; infer_instance

instance itemsOf (r : Ref) : Quiet (Vm.itemsOf r) := by
  unfold Vm.itemsOf
  refine @bind _ _ _ _ _ fun p => ?_
  cases p <;> infer_instance

instance tableOf (r : Ref) : Quiet (Vm.tableOf r) := by
  unfold Vm.tableOf
  refine @bind _ _ _ _ _ fun p => ?_
  cases p <;> infer_instance

instance taskOf (r : Ref) : Quiet (Vm.taskOf r) := by
  unfold Vm.taskOf
  refine @bind _ _ _ _ _ fun p => ?_
  cases p <;> infer_instance

instance arith (op : Arith) (a b : Ref) : Quiet (Vm.arith op a b) := by
  unfold Vm.arith
  refine @bind _ _ _ _ _ fun x => @bind _ _ _ _ _ fun y => ?_
  split
  · split <;> infer_instance
  · infer_instance

instance runBinary (f : BinaryFn) (a b : Ref) : Quiet (Vm.runBinary f a b) := by
  unfold Vm.runBinary
  cases f with
  | strMul =>
    refine @bind _ _ _ _ _ fun n => @bind _ _ _ _ _ fun x => ?_
    dsimp only
    split <;> infer_instance
  | _ => infer_instance

instance require (slot : Slot) (pick : Slots → Option α) (r : Ref) :
    Quiet (Vm.require slot pick r) := by
  unfold Vm.require; infer_instance

instance binary (op : Arith) (a b : Ref) : Quiet (Vm.binary op a b) := by
  unfold Vm.binary; infer_instance

instance compare (a b : Ref) : Quiet (Vm.compare a b) := by
  unfold Vm.compare
  refine @bind _ _ _ _ _ fun o => ?_
  cases o <;> infer_instance

instance equals (a b : Ref) : Quiet (Vm.equals a b) := by
  unfold Vm.equals; infer_instance

instance truthy (r : Ref) : Quiet (Vm.truthy r) := by
  unfold Vm.truthy; infer_instance

instance display (r : Ref) : Quiet (Vm.display r) := by
  unfold Vm.display; infer_instance

instance strOf (r : Ref) : Quiet (Vm.strOf r) := by
  unfold Vm.strOf; infer_instance

instance getMethod (obj : Ref) (name : String) : Quiet (Vm.getMethod obj name) := by
  unfold Vm.getMethod
  refine @bind _ _ _ _ _ fun k => @bind _ _ _ _ _ fun found => ?_
  cases found <;> infer_instance

instance getClassAttr (cls : Ref) (name : String) : Quiet (Vm.getClassAttr cls name) := by
  unfold Vm.getClassAttr
  split
  · infer_instance
  · split
    · refine @bind _ _ _ _ _ fun c => ?_
      split <;> infer_instance
    · refine @bind _ _ _ _ _ fun found => ?_
      cases found <;> infer_instance

instance getMember (module : Ref) (name : String) : Quiet (Vm.getMember module name) := by
  unfold Vm.getMember
  refine @bind _ _ _ _ _ fun p => ?_
  cases p with
  | module m =>
    dsimp only
    split
    · infer_instance
    · refine @bind _ _ _ _ _ fun v => ?_
      cases v <;> infer_instance
  | _ => infer_instance

instance getErrorAttr (err : Ref) (name : String) : Quiet (Vm.getErrorAttr err name) := by
  unfold Vm.getErrorAttr
  refine @bind _ _ _ _ _ fun p => ?_
  cases p with
  | error e =>
    dsimp only
    split
    · infer_instance
    · split
      · split <;> infer_instance
      · split <;> infer_instance
  | _ => infer_instance

instance runGetAttr (f : GetAttrFn) (obj : Ref) (name : String) :
    Quiet (Vm.runGetAttr f obj name) := by
  cases f <;> unfold Vm.runGetAttr <;> infer_instance

instance getAttr (obj : Ref) (name : String) : Quiet (Vm.getAttr obj name) := by
  unfold Vm.getAttr; infer_instance

instance runGetItem (f : GetItemFn) (obj key : Ref) : Quiet (Vm.runGetItem f obj key) := by
  unfold Vm.runGetItem
  cases f with
  | str =>
    refine @bind _ _ _ _ _ fun i => @bind _ _ _ _ _ fun b => ?_
    split <;> infer_instance
  | array =>
    refine @bind _ _ _ _ _ fun i => @bind _ _ _ _ _ fun items => ?_
    split
    · split <;> infer_instance
    · infer_instance
  | hash =>
    refine @bind _ _ _ _ _ fun t => @bind _ _ _ _ _ fun found => ?_
    cases found with
    | some i =>
      dsimp only
      split <;> infer_instance
    | none => infer_instance
  | key => infer_instance

instance getItem (obj key : Ref) : Quiet (Vm.getItem obj key) := by
  unfold Vm.getItem; infer_instance

end Quiet
end ObjectMachine
