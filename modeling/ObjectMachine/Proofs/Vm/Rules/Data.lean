import ObjectMachine.Proofs.Vm.Rules

/-!
# ObjectMachine.Proofs.Vm.Rules.Data

Making values, classes and names, operators, and copies obey the rules.

* `Payload.Unfilled` — the payloads that objects are made with: a hash is made without entries.
* `Obeys.new`, `Obeys.importModule`, `Obeys.getAttr`, `Obeys.getItem`, … — the instances, in the
  order of the definitions.
* `Obeys.hashSet`, `Obeys.unpack` — what fills hashes obeys the rules that writing in a hash obeys.
-/

namespace ObjectMachine

open ObjectMachine.Action

/-- A payload that an object can be made with. -/
class Payload.Unfilled (p : Payload) : Prop where
  empty : ∀ t, p = .hash t → t = {}

namespace Payload.Unfilled

instance object (slots : Array Ref) : Unfilled (.object slots) := ⟨by rintro _ ⟨⟩⟩
instance cls (c : Class) : Unfilled (.cls c) := ⟨by rintro _ ⟨⟩⟩
instance int (i : Int64) : Unfilled (.int i) := ⟨by rintro _ ⟨⟩⟩
instance float (x : Float) : Unfilled (.float x) := ⟨by rintro _ ⟨⟩⟩
instance str (b : ByteArray) : Unfilled (.str b) := ⟨by rintro _ ⟨⟩⟩
instance array (items : Array Ref) : Unfilled (.array items) := ⟨by rintro _ ⟨⟩⟩
instance hash : Unfilled (.hash {}) := ⟨by rintro _ ⟨⟩; rfl⟩
instance method (m : Method) : Unfilled (.method m) := ⟨by rintro _ ⟨⟩⟩
instance code (c : Code) : Unfilled (.code c) := ⟨by rintro _ ⟨⟩⟩
instance frame (f : Frame) : Unfilled (.frame f) := ⟨by rintro _ ⟨⟩⟩
instance module (m : Module) : Unfilled (.module m) := ⟨by rintro _ ⟨⟩⟩
instance task (t : TaskRef) : Unfilled (.task t) := ⟨by rintro _ ⟨⟩⟩
instance var (value : Option Ref) : Unfilled (.var value) := ⟨by rintro _ ⟨⟩⟩
instance error (e : ErrorInfo) : Unfilled (.error e) := ⟨by rintro _ ⟨⟩⟩

end Payload.Unfilled

namespace Obeys

variable {P : (α : Type) → Action α → Prop}

section Rule

variable [Rule P] {α : Type}

/-! ## Traces, failures and objects -/

/-- A line on a trace does not tell the method of a frame. -/
theorem trace (on : Channels → Bool) (channel : String) {text : Vm → String}
    (htext : ∀ r b vm, text (vm.credit r b) = text vm) : Obeys P (Vm.trace on channel text) := by
  unfold Vm.trace
  refine change (fun vm => ?_) fun r b vm => ?_
  · split <;> rfl
  · show (if on vm.config.trace then _ else _) = _
    rw [htext]
    split <;> rfl

instance traceConst (on : Channels → Bool) (channel text : String) :
    Obeys P (Vm.trace on channel fun _ => text) :=
  trace on channel fun _ _ _ => rfl

instance className (r : Ref) : Obeys P (Vm.className r) := by
  unfold Vm.className; infer_instance

instance mismatch (expected : String) (found : Ref) :
    Obeys P (Vm.mismatch expected found : Action α) := by
  unfold Vm.mismatch; infer_instance

instance alloc (cls : Ref) (p : Payload) [hp : p.Unfilled] : Obeys P (Vm.alloc cls p) :=
  ⟨Rule.alloc cls hp.empty⟩

instance new (k : Builtin) (p : Payload) [p.Unfilled] : Obeys P (Vm.new k p) :=
  look (f := fun vm => Vm.alloc (k.ref vm.heap.id) p) (fun _ => inferInstance) fun _ _ _ _ => rfl

instance nil : Obeys P Vm.nil :=
  look (f := fun vm => pure (nilRef vm.heap.id)) (fun _ => inferInstance) fun _ _ _ _ => rfl

instance bool (b : Bool) : Obeys P (Vm.bool b) :=
  look (f := fun vm => pure (boolRef vm.heap.id b)) (fun _ => inferInstance) fun _ _ _ _ => rfl

instance newInt (i : Int64) : Obeys P (Vm.newInt i) := new _ _

instance newFloat (x : Float) : Obeys P (Vm.newFloat x) := new _ _

instance newBytes (b : ByteArray) : Obeys P (Vm.newBytes b) := new _ _

instance newStr (s : String) : Obeys P (Vm.newStr s) := newBytes _

instance newArray (items : List Ref) : Obeys P (Vm.newArray items) := new _ _

instance newHash : Obeys P Vm.newHash := new _ _

instance newVar (value : Option Ref) : Obeys P (Vm.newVar value) := new _ _

instance newLength (n : Nat) : Obeys P (Vm.newLength n) := newInt _

instance newStrs (ss : List String) : Obeys P (Vm.newStrs ss) := by
  induction ss with
  | nil => unfold Vm.newStrs; infer_instance
  | cons s rest ih => unfold Vm.newStrs; infer_instance

instance allocError (message : String) (cause : Option Ref) (lines : List String) :
    Obeys P (Vm.allocError message cause lines) := new _ _

instance newError (message : String) (cause : Option Ref) : Obeys P (Vm.newError message cause) :=
  look (f := fun vm => Vm.allocError message cause vm.backtrace) (fun _ => inferInstance)
    fun r b vm _ => by rw [Vm.credit_backtrace]

instance newMethod (name : String) (body : Body) (receiver : Option Ref) :
    Obeys P (Vm.newMethod name body receiver) := new _ _

instance newNative (name : String) (f : Native) : Obeys P (Vm.newNative name f) := newMethod _ _ _

instance bindMethod (method receiver : Ref) : Obeys P (Vm.bind method receiver) := by
  unfold Vm.bind
  refine inspect _ (fun p => ?_) fun b p => by cases p <;> rfl
  cases p <;> infer_instance

instance newTask (t : TaskId) : Obeys P (Vm.newTask t) :=
  look (f := fun vm => Vm.new .task (.task ⟨t, t == vm.task⟩)) (fun _ => inferInstance)
    fun _ _ _ _ => rfl

instance currentTask : Obeys P Vm.currentTask :=
  look (f := fun vm => Vm.newTask vm.task) (fun _ => inferInstance) fun _ _ _ _ => rfl

mutual

theorem loadCode : ∀ unit, Obeys P (Vm.loadCode unit)
  | ⟨name, code, consts, names, locals, freevars, arity⟩ => by
    have := loadConstants consts
    unfold Vm.loadCode
    infer_instance

theorem loadConstant : ∀ c, Obeys P (Vm.loadConstant c)
  | .nil => by unfold Vm.loadConstant; infer_instance
  | .int _ => by unfold Vm.loadConstant; infer_instance
  | .float _ => by unfold Vm.loadConstant; infer_instance
  | .str _ => by unfold Vm.loadConstant; infer_instance
  | .code u => by
    unfold Vm.loadConstant
    exact loadCode u

theorem loadConstants : ∀ cs, Obeys P (Vm.loadConstants cs)
  | [] => by unfold Vm.loadConstants; infer_instance
  | c :: rest => by
    have := loadConstant c
    have := loadConstants rest
    unfold Vm.loadConstants
    infer_instance

end

attribute [instance] loadCode

instance newBytecodeMethod (unit : CodeUnit) (module : Option Ref) :
    Obeys P (Vm.newBytecodeMethod unit module) := by
  unfold Vm.newBytecodeMethod; infer_instance

instance codeUnit (code : Ref) : Obeys P (Vm.codeUnit code) := by
  unfold Vm.codeUnit
  refine inspect _ (fun p => ?_) fun b p => by cases p <;> rfl
  cases p <;> infer_instance

/-! ## Classes and names -/

instance registering (name : String) (r : Ref) :
    Obeys P (modify fun vm => { vm with classes := vm.classes.insert name r } : Action Unit) :=
  change (fun _ => rfl) fun _ _ _ => rfl

instance addClass (c : Class) : Obeys P (Vm.addClass c) := by
  unfold Vm.addClass; infer_instance

instance classNew (name : String) (super : Option Ref) (size : Nat) :
    Obeys P (Vm.classNew name super size) := by
  unfold Vm.classNew
  cases super <;> infer_instance

/-- A change of contents of objects that are no frame, method or hash. -/
theorem update (x : Ref) {g : Payload → Payload} (hg : Payload.Sparing g) :
    Obeys P (Action.modifyHeap fun h => h.update x g) :=
  ⟨Rule.update x hg⟩

instance setSlots (x : Ref) (slots : Array Ref) :
    Obeys P (Action.modifyHeap fun h => h.update x (Payload.setSlots slots)) :=
  update x fun p hp => by cases p <;> first | rfl | exact (hp.elim id id).elim

instance setItems (x : Ref) (items : Array Ref) :
    Obeys P (Action.modifyHeap fun h => h.update x (Payload.setItems items)) :=
  update x fun p hp => by cases p <;> first | rfl | exact (hp.elim id id).elim

instance setValue (x value : Ref) :
    Obeys P (Action.modifyHeap fun h => h.update x (Payload.setValue value)) :=
  update x fun p hp => by cases p <;> first | rfl | exact (hp.elim id id).elim

instance addMethod (x : Ref) (name : String) (m : Ref) :
    Obeys P (Action.modifyHeap fun h => h.update x (Payload.addMethod name m)) :=
  update x fun p hp => by cases p <;> first | rfl | exact (hp.elim id id).elim

instance addLocal (x : Ref) (name : String) (var : Ref) :
    Obeys P (Action.modifyHeap fun h => h.update x (Payload.addLocal name var)) :=
  update x fun p hp => by cases p <;> first | rfl | exact (hp.elim id id).elim

instance defineMethod (cls : Ref) (name : String) (method : Ref) :
    Obeys P (Vm.defineMethod cls name method) := by
  unfold Vm.defineMethod; infer_instance

instance defineNative (cls : Ref) (name : String) (f : Native) :
    Obeys P (Vm.defineNative cls name f) := by
  unfold Vm.defineNative; infer_instance

instance setGlobal (name : String) (value : Ref) : Obeys P (Vm.setGlobal name value) :=
  change (fun _ => rfl) fun _ _ _ => rfl

instance readVar (var : Ref) : Obeys P (Vm.readVar var) := by
  unfold Vm.readVar
  refine inspect _ (fun p => ?_) fun b p => by cases p <;> rfl
  cases p <;> infer_instance

instance writeVar (var value : Ref) : Obeys P (Vm.writeVar var value) := by
  unfold Vm.writeVar
  refine inspect _ (fun p => ?_) fun b p => by cases p <;> rfl
  cases p <;> infer_instance

instance newMember (module : Ref) (name : String) (member : Member) :
    Obeys P (Vm.newMember module name member) := by
  unfold Vm.newMember
  cases member <;> infer_instance

instance importMembers (module : Ref) (members : List (String × Member)) :
    Obeys P (Vm.importMembers module members) := by
  induction members with
  | nil => unfold Vm.importMembers; infer_instance
  | cons m rest ih => unfold Vm.importMembers; infer_instance

instance importing (name : String) (module : Ref) :
    Obeys P (modify fun vm => { vm with modules := vm.modules.insert name module } :
      Action Unit) :=
  change (fun _ => rfl) fun _ _ _ => rfl

instance importModule (name : String) : Obeys P (Vm.importModule name) := by
  unfold Vm.importModule
  refine get_bind (fun vm => ?_) fun _ _ _ _ => rfl
  split
  · infer_instance
  · refine get_bind (fun vm' => ?_) fun _ _ _ _ => rfl
    split <;> infer_instance

instance raisedValue (e : Error) : Obeys P (Vm.raisedValue e) := by
  unfold Vm.raisedValue
  split <;> infer_instance

/-! ## Operators -/

instance numberOf (r : Ref) : Obeys P (Vm.numberOf r) := by
  unfold Vm.numberOf
  refine inspect _ (fun p => ?_) fun b p => by cases p <;> rfl
  split <;> infer_instance

instance intOf (r : Ref) : Obeys P (Vm.intOf r) := by
  unfold Vm.intOf
  refine inspect _ (fun p => ?_) fun b p => by cases p <;> rfl
  cases p <;> infer_instance

instance bytesOf (r : Ref) : Obeys P (Vm.bytesOf r) := by
  unfold Vm.bytesOf
  refine inspect _ (fun p => ?_) fun b p => by cases p <;> rfl
  cases p <;> infer_instance

instance textOf (r : Ref) : Obeys P (Vm.textOf r) := by
  unfold Vm.textOf; infer_instance

instance itemsOf (r : Ref) : Obeys P (Vm.itemsOf r) := by
  unfold Vm.itemsOf
  refine inspect _ (fun p => ?_) fun b p => by cases p <;> rfl
  cases p <;> infer_instance

instance tableOf (r : Ref) : Obeys P (Vm.tableOf r) := by
  unfold Vm.tableOf
  refine inspect _ (fun p => ?_) fun b p => by cases p <;> rfl
  cases p <;> infer_instance

instance taskOf (r : Ref) : Obeys P (Vm.taskOf r) := by
  unfold Vm.taskOf
  refine inspect _ (fun p => ?_) fun b p => by cases p <;> rfl
  cases p <;> infer_instance

instance arith (op : Arith) (a b : Ref) : Obeys P (Vm.arith op a b) := by
  unfold Vm.arith
  refine after fun x => after fun y => ?_
  split
  · split <;> infer_instance
  · infer_instance

instance runBinary (f : BinaryFn) (a b : Ref) : Obeys P (Vm.runBinary f a b) := by
  unfold Vm.runBinary
  cases f with
  | strMul =>
    refine after fun n => after fun x => ?_
    dsimp only
    split <;> infer_instance
  | _ => infer_instance

instance require (slot : Slot) (pick : Slots → Option α) (r : Ref) :
    Obeys P (Vm.require slot pick r) := by
  unfold Vm.require; infer_instance

instance binary (op : Arith) (a b : Ref) : Obeys P (Vm.binary op a b) := by
  unfold Vm.binary; infer_instance

instance compare (a b : Ref) : Obeys P (Vm.compare a b) := by
  unfold Vm.compare
  refine after fun o => ?_
  cases o <;> infer_instance

instance equals (a b : Ref) : Obeys P (Vm.equals a b) := by
  unfold Vm.equals; infer_instance

instance truthy (r : Ref) : Obeys P (Vm.truthy r) := by
  unfold Vm.truthy; infer_instance

instance display (r : Ref) : Obeys P (Vm.display r) := by
  unfold Vm.display; infer_instance

instance strOf (r : Ref) : Obeys P (Vm.strOf r) := by
  unfold Vm.strOf; infer_instance

instance getMethod (obj : Ref) (name : String) : Obeys P (Vm.getMethod obj name) := by
  unfold Vm.getMethod
  refine after fun k => after fun found => ?_
  cases found <;> infer_instance

instance getClassAttr (cls : Ref) (name : String) : Obeys P (Vm.getClassAttr cls name) := by
  unfold Vm.getClassAttr
  split
  · infer_instance
  · split
    · refine after fun c => ?_
      split <;> infer_instance
    · refine after fun found => ?_
      cases found <;> infer_instance

instance getMember (module : Ref) (name : String) : Obeys P (Vm.getMember module name) := by
  unfold Vm.getMember
  refine inspect _ (fun p => ?_) fun b p => by cases p <;> rfl
  cases p with
  | module m =>
    dsimp only
    split
    · infer_instance
    · refine after fun v => ?_
      cases v <;> infer_instance
  | _ => infer_instance

instance getErrorAttr (err : Ref) (name : String) : Obeys P (Vm.getErrorAttr err name) := by
  unfold Vm.getErrorAttr
  refine inspect _ (fun p => ?_) fun b p => by cases p <;> rfl
  cases p with
  | error e =>
    dsimp only
    split
    · infer_instance
    · split
      · split <;> infer_instance
      · split <;> infer_instance
  | _ => infer_instance

instance runGetAttr (f : GetAttrFn) (obj : Ref) (name : String) :
    Obeys P (Vm.runGetAttr f obj name) := by
  cases f <;> unfold Vm.runGetAttr <;> infer_instance

instance getAttr (obj : Ref) (name : String) : Obeys P (Vm.getAttr obj name) := by
  unfold Vm.getAttr; infer_instance

instance runGetItem (f : GetItemFn) (obj key : Ref) : Obeys P (Vm.runGetItem f obj key) := by
  unfold Vm.runGetItem
  cases f with
  | str =>
    refine after fun i => after fun b => ?_
    split <;> infer_instance
  | array =>
    refine after fun i => after fun items => ?_
    split
    · split <;> infer_instance
    · infer_instance
  | hash =>
    refine after fun t => after fun found => ?_
    cases found with
    | some i =>
      dsimp only
      split <;> infer_instance
    | none => infer_instance
  | key => infer_instance

instance getItem (obj key : Ref) : Obeys P (Vm.getItem obj key) := by
  unfold Vm.getItem; infer_instance

instance hashGet (hash key : Ref) : Obeys P (Vm.hashGet hash key) :=
  ⟨Rule.hashGet hash key (getItem hash key).holds⟩

/-! ## Copies -/

instance pack (r : Ref) : Obeys P (Vm.pack r) := by
  have hrun : Vm.pack r = fun vm => Action.ofExcept (vm.heap.pack r) vm := by
    funext vm
    unfold Vm.pack
    cases vm.heap.pack r <;> rfl
  rw [hrun]
  exact look (f := fun vm => Action.ofExcept (vm.heap.pack r)) (fun _ => inferInstance)
    fun _ _ _ _ => congrArg Action.ofExcept (Heap.pack_credit r)

instance importOption (module : Option String) : Obeys P (Vm.importOption module) := by
  cases module <;> unfold Vm.importOption <;> infer_instance

end Rule

/-! ## Hashes -/

section HashRule

variable [HashRule P]

instance setTable (x : Ref) (t : HashTable) :
    Obeys P (Action.modifyHeap fun h => h.update x (Payload.setTable t)) :=
  ⟨HashRule.setTable x t⟩

instance hashSet (hash key value : Ref) : Obeys P (Vm.hashSet hash key value) := by
  unfold Vm.hashSet
  refine inspect _ (fun p => ?_) fun b p => by cases p <;> rfl
  cases p with
  | hash t =>
    refine after fun found => ?_
    cases found <;> infer_instance
  | _ => infer_instance

mutual

theorem unpack : ∀ p, Obeys P (Vm.unpack p)
  | .nil => by unfold Vm.unpack; infer_instance
  | .bool _ => by unfold Vm.unpack; infer_instance
  | .int _ => by unfold Vm.unpack; infer_instance
  | .float _ => by unfold Vm.unpack; infer_instance
  | .str _ => by unfold Vm.unpack; infer_instance
  | .array items => by
    have := unpackItems items
    unfold Vm.unpack
    infer_instance
  | .hash entries => by
    have := fun h => unpackEntries h entries
    unfold Vm.unpack
    infer_instance
  | .error _ cause _ => by
    have := unpackOption cause
    unfold Vm.unpack
    infer_instance
  | .method _ body receiver => by
    have := unpackOption receiver
    have := unpackBody body
    unfold Vm.unpack
    infer_instance
  | .task _ => by unfold Vm.unpack; infer_instance

theorem unpackBody : ∀ body, Obeys P (Vm.unpackBody body)
  | .native _ => by unfold Vm.unpackBody; infer_instance
  | .bytecode _ _ => by unfold Vm.unpackBody; infer_instance
  | .closure _ _ bindings => by
    have := unpackBindings bindings
    unfold Vm.unpackBody
    infer_instance

theorem unpackItems : ∀ items, Obeys P (Vm.unpackItems items)
  | [] => by unfold Vm.unpackItems; infer_instance
  | p :: rest => by
    have := unpack p
    have := unpackItems rest
    unfold Vm.unpackItems
    infer_instance

theorem unpackEntries (hash : Ref) : ∀ entries, Obeys P (Vm.unpackEntries hash entries)
  | [] => by unfold Vm.unpackEntries; infer_instance
  | (k, v) :: rest => by
    have := unpack k
    have := unpack v
    have := unpackEntries hash rest
    unfold Vm.unpackEntries
    infer_instance

theorem unpackOption : ∀ value, Obeys P (Vm.unpackOption value)
  | none => by unfold Vm.unpackOption; infer_instance
  | some p => by
    have := unpack p
    unfold Vm.unpackOption
    infer_instance

theorem unpackBindings : ∀ bindings vars, Obeys P (Vm.unpackBindings bindings vars)
  | [], _ => by unfold Vm.unpackBindings; infer_instance
  | (_, value) :: rest, vars => by
    have := unpackOption value
    have := unpackBindings rest
    unfold Vm.unpackBindings
    infer_instance

end

attribute [instance] unpack

end HashRule

end Obeys
end ObjectMachine
