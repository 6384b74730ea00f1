import ObjectMachine.Proofs.Classes.Families
import ObjectMachine.Proofs.Scopes.Sessions

/-!
# ObjectMachine.Proofs.Classes.Actions

Actions leave every object of the kind of its class.

Most objects are made as instances of the built-in class of their kind. Only constructors make
objects of a class that is given to them, and a constructor that makes objects of some kind is
found only by the classes of that family.

* `Builtin.Makes` — the payloads that are made for a built-in class.
* `Fitting` — the actions that leave every object of the kind of its class. The instances follow
  the definitions.
* `Vm.Classed.runInit`, `Vm.Classed.construct` — so do constructors.
-/

namespace ObjectMachine

open ObjectMachine.Action

/-- The payload is of the kind of a built-in class other than `Class`. -/
class Builtin.Makes (k : Builtin) (p : Payload) : Prop where
  family : p.family = k
  other : ∀ c, p ≠ .cls c

namespace Builtin.Makes

instance int (i : Int64) : Makes .int (.int i) := ⟨rfl, by rintro _ ⟨⟩⟩
instance float (x : Float) : Makes .float (.float x) := ⟨rfl, by rintro _ ⟨⟩⟩
instance str (b : ByteArray) : Makes .str (.str b) := ⟨rfl, by rintro _ ⟨⟩⟩
instance array (items : Array Ref) : Makes .array (.array items) := ⟨rfl, by rintro _ ⟨⟩⟩
instance hash (t : HashTable) : Makes .hash (.hash t) := ⟨rfl, by rintro _ ⟨⟩⟩
instance method (m : Method) : Makes .method (.method m) := ⟨rfl, by rintro _ ⟨⟩⟩
instance code (c : Code) : Makes .code (.code c) := ⟨rfl, by rintro _ ⟨⟩⟩
instance frame (f : Frame) : Makes .frame (.frame f) := ⟨rfl, by rintro _ ⟨⟩⟩
instance module (m : Module) : Makes .module (.module m) := ⟨rfl, by rintro _ ⟨⟩⟩
instance task (t : TaskRef) : Makes .task (.task t) := ⟨rfl, by rintro _ ⟨⟩⟩
instance var (value : Option Ref) : Makes .var (.var value) := ⟨rfl, by rintro _ ⟨⟩⟩
instance error (e : ErrorInfo) : Makes .error (.error e) := ⟨rfl, by rintro _ ⟨⟩⟩
instance object (slots : Array Ref) : Makes .object (.object slots) := ⟨rfl, by rintro _ ⟨⟩⟩

end Builtin.Makes

/-- What holds at the end of both parts of an action. -/
theorem Action.final_bind {P : Vm → Prop} {α β : Type} {a : Action α} {f : α → Action β} {vm : Vm}
    (ha : P (final (a vm))) (hf : ∀ x vm', a vm = .ok x vm' → P (final (f x vm'))) :
    P (final ((a >>= f) vm)) := by
  cases h : a vm with
  | ok x vm' =>
    rw [bind_ok h]
    exact hf x vm' h
  | error e vm' =>
    rw [h] at ha
    rw [bind_error h]
    exact ha

/-- An action that leaves every object of the kind of its class. -/
class Fitting {α : Type} (a : Action α) : Prop where
  classed : ∀ vm : Vm, vm.heap.Classed → (final (a vm)).heap.Classed

namespace Fitting

variable {α β : Type}

theorem of_ok {a : Action α} [h : Fitting a] {vm vm' : Vm} {x : α} (hc : vm.heap.Classed)
    (hrun : a vm = .ok x vm') : vm'.heap.Classed := by
  have hend := h.classed vm hc
  rwa [hrun] at hend

instance of_reads (a : Action α) [h : Reads a] : Fitting a :=
  ⟨fun vm hc => (h.state vm).symm ▸ hc⟩

instance bind (a : Action α) (f : α → Action β) [ha : Fitting a] [hf : ∀ x, Fitting (f x)] :
    Fitting (a >>= f) where
  classed vm hc := final_bind (P := fun vm => vm.heap.Classed) (ha.classed vm hc)
    fun x vm' hrun => (hf x).classed vm' (of_ok hc hrun)

/-- For an action whose result the next one inspects. -/
theorem after {a : Action α} {f : α → Action β} [Fitting a] (h : ∀ x, Fitting (f x)) :
    Fitting (a >>= f) :=
  inferInstance

/-- An action that depends on the state in which it begins. -/
theorem reading {f : Vm → Action α} (h : ∀ vm, Fitting (f vm)) : Fitting fun vm => f vm vm :=
  ⟨fun vm => (h vm).classed vm⟩

/-- A change of anything but the heap. -/
theorem changing {f : Vm → Vm} (hheap : ∀ vm, (f vm).heap = vm.heap) :
    Fitting (modify f : Action Unit) := by
  refine ⟨fun vm hc => ?_⟩
  show (f vm).heap.Classed
  rw [hheap]
  exact hc

/-- Other contents of the same kind. -/
theorem update (r : Ref) {f : Payload → Payload} (hf : Payload.Mild f)
    (hfamily : ∀ p, (f p).family = p.family) : Fitting (Action.modifyHeap fun h => h.update r f) :=
  ⟨fun _ hc => hc.update r hf hfamily⟩

instance setSlots (r : Ref) (xs : Array Ref) :
    Fitting (Action.modifyHeap fun h => h.update r (Payload.setSlots xs)) :=
  update r (Payload.mild_setSlots xs) fun p => by cases p <;> rfl

instance setItems (r : Ref) (xs : Array Ref) :
    Fitting (Action.modifyHeap fun h => h.update r (Payload.setItems xs)) :=
  update r (Payload.mild_setItems xs) fun p => by cases p <;> rfl

instance setTable (r : Ref) (t : HashTable) :
    Fitting (Action.modifyHeap fun h => h.update r (Payload.setTable t)) :=
  update r (Payload.mild_setTable t) fun p => by cases p <;> rfl

instance setValue (r value : Ref) :
    Fitting (Action.modifyHeap fun h => h.update r (Payload.setValue value)) :=
  update r (Payload.mild_setValue value) fun p => by cases p <;> rfl

instance addMethod (r : Ref) (name : String) (m : Ref) :
    Fitting (Action.modifyHeap fun h => h.update r (Payload.addMethod name m)) :=
  update r (Payload.mild_addMethod name m) fun p => by cases p <;> rfl

instance addLocal (r : Ref) (name : String) (var : Ref) :
    Fitting (Action.modifyHeap fun h => h.update r (Payload.addLocal name var)) :=
  update r (Payload.mild_addLocal name var) fun p => by cases p <;> rfl

instance trace (on : Channels → Bool) (channel : String) (text : Vm → String) :
    Fitting (Vm.trace on channel text) :=
  changing fun vm => by split <;> rfl

end Fitting

namespace Vm.Classed

variable {vm : Vm}

/-- A new object of a class of its kind. -/
theorem alloc (hc : vm.heap.Classed) {k : Ref} {p : Payload} {b : Builtin} [hp : b.Makes p]
    (hk : vm.heap.Family (some b) k) (hplain : b.heritable = false → k = b.ref vm.heap.id) :
    (final (Vm.alloc k p vm)).heap.Classed := by
  unfold Vm.alloc
  cases vm.heap.checkOwn k with
  | error e => exact hc
  | ok _ =>
    obtain rfl := hp.family
    exact hc.place hk hplain fun c heq => absurd heq (hp.other c)

/-- A new class without super class, or with the display function of its super class. -/
theorem addClass (hc : vm.heap.Classed) {c : Class}
    (hclass : c.super = none ∧ c.slots = {} ∨
      ∃ s d, c.super = some s ∧ vm.heap.cls s = .ok d ∧ c.slots = { str := d.slots.str }) :
    (final (Vm.addClass c vm)).heap.Classed := by
  have hnew : (final (Vm.new .cls (.cls c) vm)).heap.Classed := by
    rw [Vm.new_eq]
    refine hc.place (.builtin .cls) (fun _ => rfl) ?_
    rintro _ ⟨⟩
    exact hclass
  unfold Vm.addClass
  refine final_bind (P := fun vm => vm.heap.Classed) hnew fun r vm' hrun => ?_
  rw [hrun] at hnew
  have := Fitting.changing (f := fun vm : Vm => { vm with classes := vm.classes.insert c.name r })
    fun _ => rfl
  exact Fitting.classed (a := do
    modify fun vm : Vm => { vm with classes := vm.classes.insert c.name r }
    trace Channels.vm "vm" fun _ => s!"class {c.name} defined"
    return r) vm' hnew

end Vm.Classed

namespace Fitting

variable {α : Type}

/-! ## Objects, classes and names -/

instance new (k : Builtin) (p : Payload) [k.Makes p] : Fitting (Vm.new k p) :=
  ⟨fun _ hc => Vm.Classed.alloc hc (.builtin k) fun _ => rfl⟩

instance newInt (i : Int64) : Fitting (Vm.newInt i) := new _ _

instance newFloat (x : Float) : Fitting (Vm.newFloat x) := new _ _

instance newBytes (b : ByteArray) : Fitting (Vm.newBytes b) := new _ _

instance newStr (s : String) : Fitting (Vm.newStr s) := newBytes _

instance newArray (items : List Ref) : Fitting (Vm.newArray items) := new _ _

instance newHash : Fitting Vm.newHash := new _ _

instance newVar (value : Option Ref) : Fitting (Vm.newVar value) := new _ _

instance newLength (n : Nat) : Fitting (Vm.newLength n) := newInt _

instance newStrs (ss : List String) : Fitting (Vm.newStrs ss) := by
  induction ss with
  | nil => unfold Vm.newStrs; infer_instance
  | cons s rest ih => unfold Vm.newStrs; infer_instance

instance hashSet (hash key value : Ref) : Fitting (Vm.hashSet hash key value) := by
  unfold Vm.hashSet
  refine after fun p => ?_
  cases p with
  | hash t =>
    refine after fun found => ?_
    cases found <;> infer_instance
  | _ => infer_instance

instance allocError (message : String) (cause : Option Ref) (lines : List String) :
    Fitting (Vm.allocError message cause lines) := new _ _

instance newError (message : String) (cause : Option Ref) : Fitting (Vm.newError message cause) :=
  reading (f := fun vm => Vm.allocError message cause vm.backtrace) fun _ => inferInstance

instance newMethod (name : String) (body : Body) (receiver : Option Ref) :
    Fitting (Vm.newMethod name body receiver) := new _ _

instance newNative (name : String) (f : Native) : Fitting (Vm.newNative name f) := newMethod _ _ _

instance bindMethod (method receiver : Ref) : Fitting (Vm.bind method receiver) := by
  unfold Vm.bind
  refine after fun p => ?_
  cases p <;> infer_instance

instance newTask (t : TaskId) : Fitting (Vm.newTask t) :=
  reading (f := fun vm => Vm.new .task (.task ⟨t, t == vm.task⟩)) fun _ => inferInstance

instance currentTask : Fitting Vm.currentTask :=
  reading (f := fun vm => Vm.newTask vm.task) fun _ => inferInstance

mutual

theorem loadCode : ∀ unit, Fitting (Vm.loadCode unit)
  | ⟨name, code, consts, names, locals, freevars, arity⟩ => by
    have := loadConstants consts
    unfold Vm.loadCode
    infer_instance

theorem loadConstant : ∀ c, Fitting (Vm.loadConstant c)
  | .nil => by unfold Vm.loadConstant; infer_instance
  | .int _ => by unfold Vm.loadConstant; infer_instance
  | .float _ => by unfold Vm.loadConstant; infer_instance
  | .str _ => by unfold Vm.loadConstant; infer_instance
  | .code u => by
    unfold Vm.loadConstant
    exact loadCode u

theorem loadConstants : ∀ cs, Fitting (Vm.loadConstants cs)
  | [] => by unfold Vm.loadConstants; infer_instance
  | c :: rest => by
    have := loadConstant c
    have := loadConstants rest
    unfold Vm.loadConstants
    infer_instance

end

attribute [instance] loadCode

instance newBytecodeMethod (unit : CodeUnit) (module : Option Ref) :
    Fitting (Vm.newBytecodeMethod unit module) := by
  unfold Vm.newBytecodeMethod; infer_instance

/-- A class is made below a class that is there. -/
instance classNew (name : String) (super : Option Ref) (size : Nat) :
    Fitting (Vm.classNew name super size) := by
  unfold Vm.classNew
  cases super with
  | none => exact ⟨fun vm hc => Vm.Classed.addClass hc (.inl ⟨rfl, rfl⟩)⟩
  | some s =>
    refine ⟨fun vm hc => final_bind (P := fun vm => vm.heap.Classed) ?_ fun d vm' hrun => ?_⟩
    · exact Fitting.classed vm hc
    · obtain rfl := Reads.of_ok hrun
      refine Vm.Classed.addClass hc (.inr ⟨s, d, rfl, ?_, rfl⟩)
      exact ofHeap_eq_ok hrun

instance defineMethod (cls : Ref) (name : String) (method : Ref) :
    Fitting (Vm.defineMethod cls name method) := by
  unfold Vm.defineMethod; infer_instance

instance defineNative (cls : Ref) (name : String) (f : Native) :
    Fitting (Vm.defineNative cls name f) := by
  unfold Vm.defineNative; infer_instance

instance setGlobal (name : String) (value : Ref) : Fitting (Vm.setGlobal name value) :=
  changing fun _ => rfl

instance writeVar (var value : Ref) : Fitting (Vm.writeVar var value) := by
  unfold Vm.writeVar
  refine after fun p => ?_
  cases p <;> infer_instance

instance newMember (module : Ref) (name : String) (member : Member) :
    Fitting (Vm.newMember module name member) := by
  unfold Vm.newMember
  cases member <;> infer_instance

instance importMembers (module : Ref) (members : List (String × Member)) :
    Fitting (Vm.importMembers module members) := by
  induction members with
  | nil => unfold Vm.importMembers; infer_instance
  | cons m rest ih => unfold Vm.importMembers; infer_instance

instance importing (name : String) (module : Ref) :
    Fitting (modify fun vm => { vm with modules := vm.modules.insert name module } : Action Unit) :=
  changing fun _ => rfl

instance importModule (name : String) : Fitting (Vm.importModule name) := by
  unfold Vm.importModule
  refine after fun vm => ?_
  split
  · infer_instance
  · refine after fun vm' => ?_
    split <;> infer_instance

instance raisedValue (e : Error) : Fitting (Vm.raisedValue e) := by
  unfold Vm.raisedValue
  split <;> infer_instance

/-! ## Operators -/

instance arith (op : Arith) (a b : Ref) : Fitting (Vm.arith op a b) := by
  unfold Vm.arith
  refine after fun x => after fun y => ?_
  split
  · split <;> infer_instance
  · infer_instance

instance runBinary (f : BinaryFn) (a b : Ref) : Fitting (Vm.runBinary f a b) := by
  unfold Vm.runBinary
  cases f with
  | strMul =>
    refine after fun n => after fun x => ?_
    dsimp only
    split <;> infer_instance
  | _ => infer_instance

instance binary (op : Arith) (a b : Ref) : Fitting (Vm.binary op a b) := by
  unfold Vm.binary; infer_instance

instance strOf (r : Ref) : Fitting (Vm.strOf r) := by
  unfold Vm.strOf; infer_instance

instance getMethod (obj : Ref) (name : String) : Fitting (Vm.getMethod obj name) := by
  unfold Vm.getMethod
  refine after fun k => after fun found => ?_
  cases found <;> infer_instance

instance getClassAttr (cls : Ref) (name : String) : Fitting (Vm.getClassAttr cls name) := by
  unfold Vm.getClassAttr
  split
  · infer_instance
  · split
    · refine after fun c => ?_
      split <;> infer_instance
    · refine after fun found => ?_
      cases found <;> infer_instance

instance getMember (module : Ref) (name : String) : Fitting (Vm.getMember module name) := by
  unfold Vm.getMember
  refine after fun p => ?_
  cases p with
  | module m =>
    dsimp only
    split
    · infer_instance
    · refine after fun v => ?_
      cases v <;> infer_instance
  | _ => infer_instance

instance getErrorAttr (err : Ref) (name : String) : Fitting (Vm.getErrorAttr err name) := by
  unfold Vm.getErrorAttr
  refine after fun p => ?_
  cases p with
  | error e =>
    dsimp only
    split
    · infer_instance
    · split
      · split <;> infer_instance
      · split <;> infer_instance
  | _ => infer_instance

instance runGetAttr (f : GetAttrFn) (obj : Ref) (name : String) :
    Fitting (Vm.runGetAttr f obj name) := by
  cases f <;> unfold Vm.runGetAttr <;> infer_instance

instance getAttr (obj : Ref) (name : String) : Fitting (Vm.getAttr obj name) := by
  unfold Vm.getAttr; infer_instance

instance runGetItem (f : GetItemFn) (obj key : Ref) : Fitting (Vm.runGetItem f obj key) := by
  unfold Vm.runGetItem
  cases f with
  | str =>
    refine after fun i => after fun b => ?_
    split <;> infer_instance
  | array =>
    refine after fun i => after fun items => ?_
    split
    · split <;> infer_instance
    · infer_instance
  | hash =>
    refine after fun t => after fun found => ?_
    cases found with
    | some i =>
      dsimp only
      split <;> infer_instance
    | none => infer_instance
  | key => infer_instance

instance getItem (obj key : Ref) : Fitting (Vm.getItem obj key) := by
  unfold Vm.getItem; infer_instance

/-! ## Copies -/

instance importOption (module : Option String) : Fitting (Vm.importOption module) := by
  cases module <;> unfold Vm.importOption <;> infer_instance

mutual

theorem unpack : ∀ p, Fitting (Vm.unpack p)
  | .nil => by unfold Vm.unpack; infer_instance
  | .bool _ => by unfold Vm.unpack; infer_instance
  | .int _ => by unfold Vm.unpack; infer_instance
  | .float _ => by unfold Vm.unpack; infer_instance
  | .str _ => by unfold Vm.unpack; infer_instance
  | .array items => by
    have := unpackItems items
    unfold Vm.unpack
    infer_instance
  | .hash entries => by
    have := fun h => unpackEntries h entries
    unfold Vm.unpack
    infer_instance
  | .error _ cause _ => by
    have := unpackOption cause
    unfold Vm.unpack
    infer_instance
  | .method _ body receiver => by
    have := unpackOption receiver
    have := unpackBody body
    unfold Vm.unpack
    infer_instance
  | .task _ => by unfold Vm.unpack; infer_instance

theorem unpackBody : ∀ body, Fitting (Vm.unpackBody body)
  | .native _ => by unfold Vm.unpackBody; infer_instance
  | .bytecode _ _ => by unfold Vm.unpackBody; infer_instance
  | .closure _ _ bindings => by
    have := unpackBindings bindings
    unfold Vm.unpackBody
    infer_instance

theorem unpackItems : ∀ items, Fitting (Vm.unpackItems items)
  | [] => by unfold Vm.unpackItems; infer_instance
  | p :: rest => by
    have := unpack p
    have := unpackItems rest
    unfold Vm.unpackItems
    infer_instance

theorem unpackEntries (hash : Ref) : ∀ entries, Fitting (Vm.unpackEntries hash entries)
  | [] => by unfold Vm.unpackEntries; infer_instance
  | (k, v) :: rest => by
    have := unpack k
    have := unpack v
    have := unpackEntries hash rest
    unfold Vm.unpackEntries
    infer_instance

theorem unpackOption : ∀ value, Fitting (Vm.unpackOption value)
  | none => by unfold Vm.unpackOption; infer_instance
  | some p => by
    have := unpack p
    unfold Vm.unpackOption
    infer_instance

theorem unpackBindings : ∀ bindings vars, Fitting (Vm.unpackBindings bindings vars)
  | [], _ => by unfold Vm.unpackBindings; infer_instance
  | (_, value) :: rest, vars => by
    have := unpackOption value
    have := unpackBindings rest
    unfold Vm.unpackBindings
    infer_instance

end

attribute [instance] unpack

/-! ## Frames -/

instance makeLocals (bindings : NameMap Ref) (names : List String) (locals : NameMap Ref) :
    Fitting (Vm.makeLocals bindings names locals) := by
  induction names generalizing locals with
  | nil => unfold Vm.makeLocals; infer_instance
  | cons name rest ih =>
    unfold Vm.makeLocals
    dsimp only
    split <;> infer_instance

instance allocFrame (method : Ref) (unit : CodeUnit) (bindings : NameMap Ref) :
    Fitting (Vm.allocFrame method unit bindings) := by
  unfold Vm.allocFrame; infer_instance

instance buildFrame (method : Ref) : Fitting (Vm.buildFrame method) := by
  unfold Vm.buildFrame; infer_instance

instance bindParams (locals : NameMap Ref) (names : List String) (values : List Ref) :
    Fitting (Vm.bindParams locals names values) := by
  induction names generalizing values with
  | nil => unfold Vm.bindParams; infer_instance
  | cons name names ih =>
    cases values with
    | nil => unfold Vm.bindParams; infer_instance
    | cons value values =>
      unfold Vm.bindParams
      dsimp only
      split <;> infer_instance

instance prepare (method : Ref) (args : List Ref) : Fitting (Vm.prepare method args) := by
  unfold Vm.prepare
  refine after fun c => after fun unit => ?_
  dsimp only
  split <;> infer_instance

instance activate (method : Ref) (args : List Ref) : Fitting (Vm.activate method args) := by
  rw [Vm.activate_eq]
  refine after fun vm => ?_
  split <;> infer_instance

instance pushing (f : ActiveFrame) :
    Fitting (modify fun vm => { vm with
      frames := vm.frames.push { f with base := vm.stack.size } } : Action Unit) :=
  changing fun _ => rfl

instance enter (method : Ref) (args : List Ref) : Fitting (Vm.enter method args) := by
  unfold Vm.enter; infer_instance

instance counting : Fitting (modify fun vm => { vm with loops := vm.loops + 1 } : Action Unit) :=
  changing fun _ => rfl

instance enterLoop (method : Ref) (args : List Ref) : Fitting (Vm.enterLoop method args) := by
  unfold Vm.enterLoop
  refine after fun vm => ?_
  dsimp only
  split <;> infer_instance

/-! ## Native functions -/

instance classNewFrom (args : List Ref) : Fitting (Vm.classNewFrom args) := by
  unfold Vm.classNewFrom
  split
  · refine after fun name => after fun super => after fun p => ?_
    cases p with
    | int n =>
      dsimp only
      split <;> infer_instance
    | _ => infer_instance
  · infer_instance

instance defineFrom (args : List Ref) : Fitting (Vm.defineFrom args) := by
  unfold Vm.defineFrom
  split <;> infer_instance

instance requestSend (target value : Ref) : Fitting (Vm.requestSend target value) := by
  unfold Vm.requestSend; infer_instance

instance arrayPush (array item : Ref) : Fitting (Vm.arrayPush array item) := by
  unfold Vm.arrayPush
  refine after fun p => ?_
  cases p <;> infer_instance

instance arrayPop (array : Ref) : Fitting (Vm.arrayPop array) := by
  unfold Vm.arrayPop
  refine after fun p => ?_
  cases p with
  | array items =>
    refine after fun _ => ?_
    split <;> infer_instance
  | _ => infer_instance

instance setSlot (obj : Ref) (i : Nat) (value : Ref) : Fitting (Vm.setSlot obj i value) := by
  unfold Vm.setSlot
  refine after fun p => ?_
  cases p with
  | object slots =>
    dsimp only
    split <;> infer_instance
  | _ => infer_instance

/-- An action that replaces one failure of another by nil. -/
instance hashGet (hash key : Ref) : Fitting (Vm.hashGet hash key) where
  classed vm hc := by
    have hitem := (getItem hash key).classed vm hc
    unfold Vm.hashGet
    split
    · rename_i h
      rw [h] at hitem
      exact hitem
    · exact hitem

instance printing (line : String) :
    Fitting (modify fun vm => { vm with output := vm.output ++ line ++ "\n" } : Action Unit) :=
  changing fun _ => rfl

/-- Of the native functions, one collects. -/
theorem runNative {f : Native} (hf : f ≠ .collect) (args : List Ref) :
    Fitting (Vm.runNative f args) := by
  unfold Vm.runNative
  split
  case h_8 => exact absurd rfl hf
  case h_32 =>
    refine after fun p => ?_
    cases p with
    | int n =>
      refine after fun found => ?_
      cases found <;> infer_instance
    | _ => infer_instance
  case h_33 =>
    refine after fun p => ?_
    cases p with
    | int n =>
      refine after fun done => ?_
      split <;> infer_instance
    | _ => infer_instance
  all_goals infer_instance

end Fitting

/-! ## Constructors -/

namespace Vm.Classed

variable {vm : Vm} {cls : Ref}

theorem constructObject (hc : vm.heap.Classed) (hk : vm.heap.Family (some .object) cls)
    (args : List Ref) : (final (Vm.constructObject cls args vm)).heap.Classed := by
  unfold Vm.constructObject
  refine final_bind (P := fun vm => vm.heap.Classed) (Fitting.classed vm hc) fun c vm₁ hrun => ?_
  obtain rfl := Reads.of_ok hrun
  dsimp only
  split
  · exact hc
  · refine final_bind (P := fun vm => vm.heap.Classed) (Fitting.classed _ hc) fun n vm₂ hrun => ?_
    obtain rfl := Reads.of_ok hrun
    have halloc := alloc hc (p := .object (Array.replicate c.size n)) hk (by rintro ⟨⟩)
    refine final_bind (P := fun vm => vm.heap.Classed) halloc fun obj vm₃ hrun => ?_
    rw [hrun] at halloc
    refine @Fitting.classed _ _ (Fitting.after fun found => ?_) vm₃ halloc
    cases found with
    | some init => infer_instance
    | none =>
      dsimp only
      split <;> infer_instance

/-- A constructor that makes objects of a kind is that of the family of this kind. -/
theorem runInit (hc : vm.heap.Classed) {b : Builtin} {f : InitFn} (hf : b.slots.init = some f)
    (hk : vm.heap.Family (some b) cls) (args : List Ref) :
    (final (Vm.runInit f cls args vm)).heap.Classed := by
  have hreads : ∀ {α : Type} {a : Action α} {p : α → Payload} [Reads a] [∀ x, b.Makes (p x)],
      b.heritable = true → (final ((do
        let x ← a
        return Reply.value (← Vm.alloc cls (p x))) vm)).heap.Classed := by
    intro α a p _ _ hb
    refine final_bind (P := fun vm => vm.heap.Classed) (Fitting.classed vm hc) fun x vm₁ hrun => ?_
    obtain rfl := Reads.of_ok hrun
    have halloc := alloc hc (p := p x) hk fun h => absurd (hb.symm.trans h) (by decide)
    exact final_bind (P := fun vm => vm.heap.Classed) halloc fun r vm₂ hrun => by
      rw [hrun] at halloc
      exact halloc
  have hplain : ∀ {p : Payload} [b.Makes p], b.heritable = true →
      (final ((do return Reply.value (← Vm.alloc cls p)) vm)).heap.Classed := by
    intro p _ hb
    have halloc := alloc hc (p := p) hk fun h => absurd (hb.symm.trans h) (by decide)
    exact final_bind (P := fun vm => vm.heap.Classed) halloc fun r vm₂ hrun => by
      rw [hrun] at halloc
      exact halloc
  unfold Vm.runInit
  split
  case h_1 =>
    obtain rfl : b = .object := by cases b <;> cases hf; rfl
    exact constructObject hc hk args
  case h_8 | h_9 =>
    obtain rfl : b = .int := by cases b <;> cases hf; rfl
    first | exact hplain rfl | exact hreads rfl
  case h_11 | h_12 =>
    obtain rfl : b = .float := by cases b <;> cases hf; rfl
    first | exact hplain rfl | exact hreads rfl
  case h_17 =>
    obtain rfl : b = .array := by cases b <;> cases hf; rfl
    exact hplain rfl
  case h_18 =>
    obtain rfl : b = .hash := by cases b <;> cases hf; rfl
    exact hplain rfl
  case h_15 =>
    refine @Fitting.classed _ _ (Fitting.after fun p => ?_) vm hc
    cases p <;> infer_instance
  all_goals exact Fitting.classed vm hc

end Vm.Classed

instance Fitting.construct (cls : Ref) (args : List Ref) : Fitting (Vm.construct cls args) where
  classed vm hc := by
    unfold Vm.construct
    refine final_bind (P := fun vm => vm.heap.Classed) (Fitting.classed vm hc) fun f vm₁ hrun => ?_
    obtain rfl := Reads.of_ok hrun
    obtain ⟨b, hk, hf⟩ := hc.of_init (ofHeap_eq_ok hrun)
    exact Vm.Classed.runInit hc hf hk args

end ObjectMachine
