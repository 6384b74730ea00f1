import ObjectMachine.Proofs.Scopes.Activations

/-!
# ObjectMachine.Proofs.Vm.Ordinary

Which errors an action can raise.

Only entering a method fails because there are too many frames or loops, and only the native
function that raises a value raises one. Everything else fails with an error about its operands.

* `Error.Ordinary` — such an error.
* `Ordinary` — an action that raises no other one. The instances follow the definitions.
* `Ordinary.runNative`, `Ordinary.execute` — native functions and instructions.
* `Vm.enter_overflows`, `Vm.enterLoop_overflows` — when there is no room for another frame.
* `Machine.Origin` — what a machine was doing when it failed.
-/

namespace ObjectMachine

open ObjectMachine.Action

/-- An error that is neither the lack of room for another frame nor a raised value. -/
class Error.Ordinary (e : Error) : Prop where
  ne_overflow : ∀ n, e ≠ .stackOverflow n
  ne_panic : ∀ v, e ≠ .panic v

namespace Error.Ordinary

instance noAttribute (c n : String) : Ordinary (.noAttribute c n) := ⟨by simp, by simp⟩

instance noItem (c k : String) : Ordinary (.noItem c k) := ⟨by simp, by simp⟩

instance indexOutOfRange (i : Int64) (n : Nat) : Ordinary (.indexOutOfRange i n) :=
  ⟨by simp, by simp⟩

instance typeMismatch (e f : String) : Ordinary (.typeMismatch e f) := ⟨by simp, by simp⟩

instance divisionByZero : Ordinary .divisionByZero := ⟨by simp, by simp⟩

instance notComparable (l r : String) : Ordinary (.notComparable l r) := ⟨by simp, by simp⟩

instance unbound (n : String) : Ordinary (.unbound n) := ⟨by simp, by simp⟩

instance arity (m : String) (e g : Nat) : Ordinary (.arity m e g) := ⟨by simp, by simp⟩

instance notInstantiable (c : String) : Ordinary (.notInstantiable c) := ⟨by simp, by simp⟩

instance noModule (n : String) : Ordinary (.noModule n) := ⟨by simp, by simp⟩

instance pack (e : PackError) : Ordinary (.pack e) := ⟨by simp, by simp⟩

instance joinSelf : Ordinary .joinSelf := ⟨by simp, by simp⟩

instance joinMain : Ordinary .joinMain := ⟨by simp, by simp⟩

end Error.Ordinary

/-- An action that raises ordinary errors only. -/
class Ordinary {α : Type} (a : Action α) : Prop where
  raises : ∀ {vm e vm'}, a vm = .error (.raised e) vm' → e.Ordinary

namespace Ordinary

variable {α β : Type}

instance unraised (a : Action α) [ha : Unraised a] : Ordinary a :=
  ⟨fun h => absurd h (ha.ne_raised _ _ _)⟩

instance raise (e : Error) [he : e.Ordinary] : Ordinary (Action.raise e : Action α) :=
  ⟨by rintro _ _ _ ⟨⟩; exact he⟩

instance crash : Ordinary (throw .crashed : Action α) := ⟨by rintro _ _ _ ⟨⟩⟩

instance bind (a : Action α) (f : α → Action β) [ha : Ordinary a] [hf : ∀ x, Ordinary (f x)] :
    Ordinary (a >>= f) := by
  constructor
  intro vm e vm'' h
  cases hrun : a vm with
  | ok x vm' =>
    rw [bind_ok hrun] at h
    exact (hf x).raises h
  | error s vm' =>
    rw [bind_error hrun] at h
    cases h
    exact ha.raises hrun

/-- What stands after a failure does not matter. -/
instance raise_bind (e : Error) [e.Ordinary] (f : α → Action β) :
    Ordinary ((Action.raise e : Action α) >>= f) :=
  raise e

instance crash_bind (f : α → Action β) : Ordinary ((throw .crashed : Action α) >>= f) :=
  crash

theorem reading {f : Vm → Action α} [h : ∀ vm, Ordinary (f vm)] : Ordinary fun vm => f vm vm :=
  ⟨fun {vm _ _} hrun => (h vm).raises hrun⟩

theorem get_bind {f : Vm → Action α} [h : ∀ vm, Ordinary (f vm)] : Ordinary (get >>= f) :=
  reading (f := f)

/-! ## Objects, classes and names -/

instance payload (r : Ref) : Ordinary (Vm.payload r) := by
  unfold Vm.payload; infer_instance

instance className (r : Ref) : Ordinary (Vm.className r) := by
  unfold Vm.className; infer_instance

instance modifyHeap (f : Heap → Heap) : Ordinary (Action.modifyHeap f) := by
  unfold Action.modifyHeap; infer_instance

instance mismatch (expected : String) (found : Ref) :
    Ordinary (Vm.mismatch expected found : Action α) := by
  unfold Vm.mismatch; infer_instance

instance new (k : Builtin) (p : Payload) : Ordinary (Vm.new k p) :=
  reading (f := fun vm => Vm.alloc (k.ref vm.heap.id) p)

instance nil : Ordinary Vm.nil :=
  reading (f := fun vm => pure (nilRef vm.heap.id))

instance bool (b : Bool) : Ordinary (Vm.bool b) :=
  reading (f := fun vm => pure (boolRef vm.heap.id b))

instance newInt (i : Int64) : Ordinary (Vm.newInt i) := new _ _

instance newFloat (x : Float) : Ordinary (Vm.newFloat x) := new _ _

instance newBytes (b : ByteArray) : Ordinary (Vm.newBytes b) := new _ _

instance newStr (s : String) : Ordinary (Vm.newStr s) := newBytes _

instance newArray (items : List Ref) : Ordinary (Vm.newArray items) := new _ _

instance newHash : Ordinary Vm.newHash := new _ _

instance newLength (n : Nat) : Ordinary (Vm.newLength n) := newInt _

instance newStrs (ss : List String) : Ordinary (Vm.newStrs ss) := by
  induction ss with
  | nil => exact unraised (pure [])
  | cons s rest ih => unfold Vm.newStrs; infer_instance

instance hashSet (hash key value : Ref) : Ordinary (Vm.hashSet hash key value) := by
  unfold Vm.hashSet
  refine @bind _ _ _ _ _ fun p => ?_
  cases p with
  | hash t =>
    refine @bind _ _ _ _ _ fun found => ?_
    cases found <;> infer_instance
  | _ => infer_instance

instance newError (message : String) (cause : Option Ref) : Ordinary (Vm.newError message cause) :=
  reading (f := fun vm => Vm.new .error (.error ⟨message, cause, vm.backtrace⟩))

instance newMethod (name : String) (body : Body) (receiver : Option Ref) :
    Ordinary (Vm.newMethod name body receiver) := new _ _

instance newNative (name : String) (f : Native) : Ordinary (Vm.newNative name f) :=
  newMethod _ _ _

instance bindMethod (method receiver : Ref) : Ordinary (Vm.bind method receiver) := by
  unfold Vm.bind
  refine @bind _ _ _ _ _ fun p => ?_
  cases p <;> infer_instance

instance newTask (t : TaskId) : Ordinary (Vm.newTask t) :=
  reading (f := fun vm => Vm.new .task (.task ⟨t, t == vm.task⟩))

instance currentTask : Ordinary Vm.currentTask :=
  reading (f := fun vm => Vm.newTask vm.task)

mutual

theorem loadCode : ∀ unit, Ordinary (Vm.loadCode unit)
  | ⟨name, code, consts, names, locals, freevars, arity⟩ => by
    have := loadConstants consts
    unfold Vm.loadCode
    infer_instance

theorem loadConstant : ∀ c, Ordinary (Vm.loadConstant c)
  | .nil => by unfold Vm.loadConstant; infer_instance
  | .int _ => by unfold Vm.loadConstant; infer_instance
  | .float _ => by unfold Vm.loadConstant; infer_instance
  | .str _ => by unfold Vm.loadConstant; infer_instance
  | .code u => by
    unfold Vm.loadConstant
    exact loadCode u

theorem loadConstants : ∀ cs, Ordinary (Vm.loadConstants cs)
  | [] => by unfold Vm.loadConstants; infer_instance
  | c :: rest => by
    have := loadConstant c
    have := loadConstants rest
    unfold Vm.loadConstants
    infer_instance

end

attribute [instance] loadCode

instance newBytecodeMethod (unit : CodeUnit) (module : Option Ref) :
    Ordinary (Vm.newBytecodeMethod unit module) := by
  unfold Vm.newBytecodeMethod; infer_instance

instance codeUnit (code : Ref) : Ordinary (Vm.codeUnit code) := by
  unfold Vm.codeUnit
  refine @bind _ _ _ _ _ fun p => ?_
  cases p <;> infer_instance

instance addClass (c : Class) : Ordinary (Vm.addClass c) := by
  unfold Vm.addClass; infer_instance

instance classNew (name : String) (super : Option Ref) (size : Nat) :
    Ordinary (Vm.classNew name super size) := by
  unfold Vm.classNew
  cases super <;> dsimp only <;> infer_instance

instance defineMethod (cls : Ref) (name : String) (method : Ref) :
    Ordinary (Vm.defineMethod cls name method) := by
  unfold Vm.defineMethod; infer_instance

instance setGlobal (name : String) (value : Ref) : Ordinary (Vm.setGlobal name value) := by
  unfold Vm.setGlobal; infer_instance

instance readVar (var : Ref) : Ordinary (Vm.readVar var) := by
  unfold Vm.readVar
  refine @bind _ _ _ _ _ fun p => ?_
  cases p <;> infer_instance

instance newMember (module : Ref) (name : String) (member : Member) :
    Ordinary (Vm.newMember module name member) := by
  unfold Vm.newMember
  cases member <;> infer_instance

instance importMembers (module : Ref) (members : List (String × Member)) :
    Ordinary (Vm.importMembers module members) := by
  induction members with
  | nil => exact unraised (pure ())
  | cons m rest ih => unfold Vm.importMembers; infer_instance

instance importModule (name : String) : Ordinary (Vm.importModule name) := by
  unfold Vm.importModule
  refine @get_bind _ _ fun vm => ?_
  split
  · infer_instance
  · refine @get_bind _ _ fun vm' => ?_
    split <;> infer_instance

/-! ## Operators -/

instance numberOf (r : Ref) : Ordinary (Vm.numberOf r) := by
  unfold Vm.numberOf
  refine @bind _ _ _ _ _ fun p => ?_
  split <;> infer_instance

instance intOf (r : Ref) : Ordinary (Vm.intOf r) := by
  unfold Vm.intOf
  refine @bind _ _ _ _ _ fun p => ?_
  cases p <;> infer_instance

instance bytesOf (r : Ref) : Ordinary (Vm.bytesOf r) := by
  unfold Vm.bytesOf
  refine @bind _ _ _ _ _ fun p => ?_
  cases p <;> infer_instance

instance textOf (r : Ref) : Ordinary (Vm.textOf r) := by
  unfold Vm.textOf; infer_instance

instance itemsOf (r : Ref) : Ordinary (Vm.itemsOf r) := by
  unfold Vm.itemsOf
  refine @bind _ _ _ _ _ fun p => ?_
  cases p <;> infer_instance

instance tableOf (r : Ref) : Ordinary (Vm.tableOf r) := by
  unfold Vm.tableOf
  refine @bind _ _ _ _ _ fun p => ?_
  cases p <;> infer_instance

instance taskOf (r : Ref) : Ordinary (Vm.taskOf r) := by
  unfold Vm.taskOf
  refine @bind _ _ _ _ _ fun p => ?_
  cases p <;> infer_instance

instance arith (op : Arith) (a b : Ref) : Ordinary (Vm.arith op a b) := by
  unfold Vm.arith
  refine @bind _ _ _ _ _ fun x => @bind _ _ _ _ _ fun y => ?_
  split
  · split <;> infer_instance
  · infer_instance

instance runBinary (f : BinaryFn) (a b : Ref) : Ordinary (Vm.runBinary f a b) := by
  unfold Vm.runBinary
  cases f with
  | strMul =>
    refine @bind _ _ _ _ _ fun n => @bind _ _ _ _ _ fun x => ?_
    dsimp only
    split <;> infer_instance
  | _ => infer_instance

instance require (slot : Slot) (pick : Slots → Option α) (r : Ref) :
    Ordinary (Vm.require slot pick r) := by
  unfold Vm.require; infer_instance

instance binary (op : Arith) (a b : Ref) : Ordinary (Vm.binary op a b) := by
  unfold Vm.binary; infer_instance

instance compare (a b : Ref) : Ordinary (Vm.compare a b) := by
  unfold Vm.compare
  refine @bind _ _ _ _ _ fun o => ?_
  cases o <;> infer_instance

instance equals (a b : Ref) : Ordinary (Vm.equals a b) := by
  unfold Vm.equals; infer_instance

instance truthy (r : Ref) : Ordinary (Vm.truthy r) := by
  unfold Vm.truthy; infer_instance

instance display (r : Ref) : Ordinary (Vm.display r) := by
  unfold Vm.display; infer_instance

instance strOf (r : Ref) : Ordinary (Vm.strOf r) := by
  unfold Vm.strOf; infer_instance

instance getMethod (obj : Ref) (name : String) : Ordinary (Vm.getMethod obj name) := by
  unfold Vm.getMethod
  refine @bind _ _ _ _ _ fun k => @bind _ _ _ _ _ fun found => ?_
  cases found <;> infer_instance

instance getClassAttr (cls : Ref) (name : String) : Ordinary (Vm.getClassAttr cls name) := by
  unfold Vm.getClassAttr
  split
  · infer_instance
  · split
    · refine @bind _ _ _ _ _ fun c => ?_
      split <;> infer_instance
    · refine @bind _ _ _ _ _ fun found => ?_
      cases found <;> infer_instance

instance getMember (module : Ref) (name : String) : Ordinary (Vm.getMember module name) := by
  unfold Vm.getMember
  refine @bind _ _ _ _ _ fun p => ?_
  cases p with
  | module m =>
    dsimp only
    split
    · infer_instance
    · refine @bind _ _ _ _ _ fun v => ?_
      cases v <;> infer_instance
  | _ => infer_instance

instance getErrorAttr (err : Ref) (name : String) : Ordinary (Vm.getErrorAttr err name) := by
  unfold Vm.getErrorAttr
  refine @bind _ _ _ _ _ fun p => ?_
  cases p with
  | error e =>
    dsimp only
    split
    · infer_instance
    · split
      · split <;> infer_instance
      · split <;> infer_instance
  | _ => infer_instance

instance runGetAttr (f : GetAttrFn) (obj : Ref) (name : String) :
    Ordinary (Vm.runGetAttr f obj name) := by
  cases f <;> unfold Vm.runGetAttr <;> infer_instance

instance getAttr (obj : Ref) (name : String) : Ordinary (Vm.getAttr obj name) := by
  unfold Vm.getAttr; infer_instance

instance runGetItem (f : GetItemFn) (obj key : Ref) : Ordinary (Vm.runGetItem f obj key) := by
  unfold Vm.runGetItem
  cases f with
  | str =>
    refine @bind _ _ _ _ _ fun i => @bind _ _ _ _ _ fun b => ?_
    split <;> infer_instance
  | array =>
    refine @bind _ _ _ _ _ fun i => @bind _ _ _ _ _ fun items => ?_
    split
    · split <;> infer_instance
    · infer_instance
  | hash =>
    refine @bind _ _ _ _ _ fun t => @bind _ _ _ _ _ fun found => ?_
    cases found with
    | some i =>
      dsimp only
      split <;> infer_instance
    | none => infer_instance
  | key => infer_instance

instance getItem (obj key : Ref) : Ordinary (Vm.getItem obj key) := by
  unfold Vm.getItem; infer_instance

/-! ## Frames and copies -/

instance callee (method : Ref) : Ordinary (Vm.callee method) := by
  unfold Vm.callee
  refine @bind _ _ _ _ _ fun p => ?_
  cases p with
  | method m =>
    dsimp only
    cases m.body <;> infer_instance
  | _ => infer_instance

instance isBytecode (r : Ref) : Ordinary (Vm.isBytecode r) := by
  unfold Vm.isBytecode
  refine @bind _ _ _ _ _ fun p => ?_
  cases p with
  | method m =>
    dsimp only
    cases m.body <;> infer_instance
  | _ => infer_instance

instance prepare (method : Ref) (args : List Ref) : Ordinary (Vm.prepare method args) := by
  unfold Vm.prepare
  refine @bind _ _ _ _ _ fun c => @bind _ _ _ _ _ fun unit => ?_
  dsimp only
  split <;> infer_instance

instance importOption (module : Option String) : Ordinary (Vm.importOption module) := by
  cases module <;> unfold Vm.importOption <;> infer_instance

mutual

theorem unpack : ∀ p, Ordinary (Vm.unpack p)
  | .nil => by unfold Vm.unpack; infer_instance
  | .bool _ => by unfold Vm.unpack; infer_instance
  | .int _ => by unfold Vm.unpack; infer_instance
  | .float _ => by unfold Vm.unpack; infer_instance
  | .str _ => by unfold Vm.unpack; infer_instance
  | .array items => by
    have := unpackItems items
    unfold Vm.unpack
    infer_instance
  | .hash entries => by
    have := fun h => unpackEntries h entries
    unfold Vm.unpack
    infer_instance
  | .error _ cause _ => by
    have := unpackOption cause
    unfold Vm.unpack Vm.allocError
    infer_instance
  | .method _ body receiver => by
    have := unpackOption receiver
    have := unpackBody body
    unfold Vm.unpack
    infer_instance
  | .task _ => by unfold Vm.unpack; infer_instance

theorem unpackBody : ∀ body, Ordinary (Vm.unpackBody body)
  | .native _ => by unfold Vm.unpackBody; infer_instance
  | .bytecode _ _ => by unfold Vm.unpackBody; infer_instance
  | .closure _ _ bindings => by
    have := unpackBindings bindings
    unfold Vm.unpackBody
    infer_instance

theorem unpackItems : ∀ items, Ordinary (Vm.unpackItems items)
  | [] => by unfold Vm.unpackItems; infer_instance
  | p :: rest => by
    have := unpack p
    have := unpackItems rest
    unfold Vm.unpackItems
    infer_instance

theorem unpackEntries (hash : Ref) : ∀ entries, Ordinary (Vm.unpackEntries hash entries)
  | [] => by unfold Vm.unpackEntries; infer_instance
  | (k, v) :: rest => by
    have := unpack k
    have := unpack v
    have := unpackEntries hash rest
    unfold Vm.unpackEntries
    infer_instance

theorem unpackOption : ∀ value, Ordinary (Vm.unpackOption value)
  | none => by unfold Vm.unpackOption; infer_instance
  | some p => by
    have := unpack p
    unfold Vm.unpackOption
    infer_instance

theorem unpackBindings : ∀ bindings vars, Ordinary (Vm.unpackBindings bindings vars)
  | [], _ => by unfold Vm.unpackBindings; infer_instance
  | (_, value) :: rest, vars => by
    have := unpackOption value
    have := unpackBindings rest
    unfold Vm.unpackBindings
    infer_instance

end

attribute [instance] unpack

instance answerValue (a : Machine.Answer) : Ordinary (Machine.answerValue a) := by
  cases a <;> unfold Machine.answerValue <;> infer_instance

end Ordinary

/-! ## Packing -/

/-- Packing is refused for what the value holds, if at all. -/
def Refusable {α : Type} (x : Except Stop α) : Prop :=
  ∀ e, x = .error (.raised e) → e.Ordinary

namespace Refusable

variable {α β : Type} {h : Heap} {pack : Heap.Packer}

theorem ok (a : α) : Refusable (.ok a) := nofun

theorem fatal (f : Fatal) : Refusable (.error (.fatal f) : Except Stop α) := nofun

theorem bind {x : Except Stop α} {f : α → Except Stop β} (hx : Refusable x)
    (hf : ∀ a, Refusable (f a)) : Refusable (x >>= f) := by
  cases x with
  | ok a => exact hf a
  | error e =>
    rintro e' ⟨⟩
    exact hx e' rfl

theorem asking (x : Except Fatal α) : Refusable (Heap.asking x) := by
  cases x with
  | ok a => exact ok a
  | error f => exact fatal f

theorem packItems (hpack : ∀ r, Refusable (pack r)) (items : List Ref) :
    Refusable (Heap.packItems pack items) := by
  induction items with
  | nil => exact ok []
  | cons r rest ih => exact (hpack r).bind fun p => ih.bind fun ps => ok (p :: ps)

theorem packEntries (hpack : ∀ r, Refusable (pack r)) (entries : List (Ref × Ref)) :
    Refusable (Heap.packEntries pack entries) := by
  induction entries with
  | nil => exact ok []
  | cons e rest ih =>
    exact (hpack e.1).bind fun p => (hpack e.2).bind fun q => ih.bind fun ps => ok ((p, q) :: ps)

theorem packOption (hpack : ∀ r, Refusable (pack r)) (value : Option Ref) :
    Refusable (Heap.packOption pack value) := by
  cases value with
  | none => exact ok none
  | some r => exact (hpack r).bind fun p => ok (some p)

theorem packBindings (hpack : ∀ r, Refusable (pack r)) (bindings : List (String × Ref)) :
    Refusable (h.packBindings pack bindings) := by
  induction bindings with
  | nil => exact ok []
  | cons e rest ih =>
    unfold Heap.packBindings
    refine (asking _).bind fun p => ?_
    cases p with
    | var value =>
      exact (ok value).bind fun v => (packOption hpack v).bind fun p => ih.bind fun ps => ok _
    | _ => exact (fatal _).bind fun v => (packOption hpack v).bind fun p => ih.bind fun ps => ok _

theorem unitOf (code : Ref) : Refusable (h.unitOf code) := by
  unfold Heap.unitOf
  refine (asking _).bind fun p => ?_
  cases p with
  | code c => exact ok _
  | _ => exact fatal _

theorem moduleNameOf (module : Option Ref) : Refusable (h.moduleNameOf module) := by
  cases module with
  | none => exact ok none
  | some m =>
    unfold Heap.moduleNameOf
    refine (asking _).bind fun p => ?_
    cases p with
    | module m => exact ok _
    | _ => exact fatal _

theorem packBody (hpack : ∀ r, Refusable (pack r)) (body : Body) :
    Refusable (h.packBody pack body) := by
  cases body with
  | native f => exact ok _
  | bytecode code module =>
    exact (unitOf code).bind fun u => (moduleNameOf module).bind fun n => ok _
  | closure code module bindings =>
    exact (packBindings hpack _).bind fun ps => (unitOf code).bind fun u =>
      (moduleNameOf module).bind fun n => ok _

theorem packWithin (levels : Nat) (r : Ref) : Refusable (h.packWithin levels r) := by
  induction levels generalizing r with
  | zero =>
    rintro e ⟨⟩
    exact .pack _
  | succ levels ih =>
    unfold Heap.packWithin
    refine (asking _).bind fun p => ?_
    cases p with
    | array items => exact (packItems ih _).bind fun ps => ok _
    | hash t => exact (packEntries ih _).bind fun ps => ok _
    | error e => exact (packOption ih _).bind fun c => ok _
    | method m =>
      exact (packOption ih _).bind fun r => (packBody ih _).bind fun b => ok _
    | nil => exact ok _
    | bool b => exact ok _
    | int i => exact ok _
    | float x => exact ok _
    | str b => exact ok _
    | task t => exact ok _
    | _ =>
      refine (asking _).bind fun c => ?_
      rintro e ⟨⟩
      exact .pack _

end Refusable

namespace Ordinary

instance pack (r : Ref) : Ordinary (Vm.pack r) := by
  constructor
  intro vm e vm' hrun
  unfold Vm.pack at hrun
  cases hpack : vm.heap.pack r with
  | ok p =>
    rw [hpack] at hrun
    cases hrun
  | error s =>
    rw [hpack] at hrun
    cases hrun
    exact Refusable.packWithin _ r e hpack

/-! ## Constructors and native functions -/

instance displayLine (values : List Ref) : Ordinary (Vm.displayLine values) := by
  unfold Vm.displayLine; infer_instance

instance superOf (r : Ref) : Ordinary (Vm.superOf r) := by
  unfold Vm.superOf
  refine @bind _ _ _ _ _ fun p => ?_
  cases p <;> infer_instance

instance classNewFrom (args : List Ref) : Ordinary (Vm.classNewFrom args) := by
  unfold Vm.classNewFrom
  split
  · refine @bind _ _ _ _ _ fun name => @bind _ _ _ _ _ fun super => @bind _ _ _ _ _ fun p => ?_
    cases p with
    | int n =>
      dsimp only
      split <;> infer_instance
    | _ => infer_instance
  · infer_instance

instance expectClass (r : Ref) : Ordinary (Vm.expectClass r) := by
  unfold Vm.expectClass
  refine @bind _ _ _ _ _ fun p => ?_
  cases p <;> infer_instance

instance defineFrom (args : List Ref) : Ordinary (Vm.defineFrom args) := by
  unfold Vm.defineFrom
  split <;> infer_instance

instance toInt (r : Ref) : Ordinary (Vm.toInt r) := by
  unfold Vm.toInt
  refine @bind _ _ _ _ _ fun p => ?_
  cases p with
  | str b =>
    dsimp only
    split <;> infer_instance
  | _ => infer_instance

instance toFloat (r : Ref) : Ordinary (Vm.toFloat r) := by
  unfold Vm.toFloat
  refine @bind _ _ _ _ _ fun p => ?_
  cases p with
  | str b =>
    dsimp only
    split <;> infer_instance
  | _ => infer_instance

instance requestSpawn (callable : Ref) : Ordinary (Vm.requestSpawn callable) := by
  unfold Vm.requestSpawn; infer_instance

instance requestSend (target value : Ref) : Ordinary (Vm.requestSend target value) := by
  unfold Vm.requestSend; infer_instance

instance requestJoin (target : Ref) : Ordinary (Vm.requestJoin target) := by
  unfold Vm.requestJoin
  refine @bind _ _ _ _ _ fun t => @get_bind _ _ fun vm => ?_
  dsimp only
  split
  · infer_instance
  · split <;> infer_instance

instance arrayPush (array item : Ref) : Ordinary (Vm.arrayPush array item) := by
  unfold Vm.arrayPush
  refine @bind _ _ _ _ _ fun p => ?_
  cases p <;> infer_instance

instance arrayPop (array : Ref) : Ordinary (Vm.arrayPop array) := by
  unfold Vm.arrayPop
  refine @bind _ _ _ _ _ fun p => ?_
  cases p with
  | array items =>
    refine @bind _ _ _ _ _ fun _ => ?_
    split <;> infer_instance
  | _ => infer_instance

instance setSlot (obj : Ref) (i : Nat) (value : Ref) : Ordinary (Vm.setSlot obj i value) := by
  unfold Vm.setSlot
  refine @bind _ _ _ _ _ fun p => ?_
  cases p with
  | object slots =>
    dsimp only
    split <;> infer_instance
  | _ => infer_instance

instance getSlot? (obj : Ref) (i : Nat) : Ordinary (Vm.getSlot? obj i) := by
  unfold Vm.getSlot?
  refine @bind _ _ _ _ _ fun p => ?_
  cases p <;> infer_instance

end Ordinary

/-- The collector raises nothing. -/
instance Unraised.collect : Unraised Vm.collect := by
  constructor
  intro vm e vm' hrun
  unfold Vm.collect at hrun
  split at hrun <;> cases hrun

/-- The value of a key in a hash. A missing key is no failure, and every other error is that of the
look-up. -/
theorem Vm.hashGet_run (hash key : Ref) (vm : Vm) :
    (∃ c k vm', getItem hash key vm = .error (.raised (.noItem c k)) vm' ∧
      hashGet hash key vm = .ok (nilRef vm'.heap.id) vm') ∨
    (∀ c k vm', getItem hash key vm ≠ .error (.raised (.noItem c k)) vm') ∧
      hashGet hash key vm = getItem hash key vm := by
  unfold hashGet
  split
  · next c k vm' h => exact .inl ⟨c, k, vm', h, rfl⟩
  · next h => exact .inr ⟨h, rfl⟩

namespace Ordinary

variable {α : Type}

instance hashGet (hash key : Ref) : Ordinary (Vm.hashGet hash key) := by
  constructor
  intro vm e vm' hrun
  rcases Vm.hashGet_run hash key vm with ⟨c, k, u, -, hget⟩ | ⟨-, hget⟩
  · rw [hget] at hrun
    cases hrun
  · rw [hget] at hrun
    exact raises hrun

instance constructObject (cls : Ref) (args : List Ref) :
    Ordinary (Vm.constructObject cls args) := by
  unfold Vm.constructObject
  refine @bind _ _ _ _ _ fun c => ?_
  dsimp only
  split
  · infer_instance
  · refine @bind _ _ _ _ _ fun nothing => @bind _ _ _ _ _ fun obj => @bind _ _ _ _ _ fun found => ?_
    cases found with
    | some init => infer_instance
    | none =>
      dsimp only
      split <;> infer_instance

instance runInit (f : InitFn) (cls : Ref) (args : List Ref) : Ordinary (Vm.runInit f cls args) := by
  unfold Vm.runInit
  split <;> first
    | infer_instance
    | (refine @bind _ _ _ _ _ fun p => ?_
       cases p <;> infer_instance)

instance construct (cls : Ref) (args : List Ref) : Ordinary (Vm.construct cls args) := by
  unfold Vm.construct; infer_instance

/-- Only one native function raises the value that it is given. -/
theorem runNative {f : Native} (hf : f ≠ .raise) (args : List Ref) :
    Ordinary (Vm.runNative f args) := by
  unfold Vm.runNative
  split
  case h_7 => exact absurd rfl hf
  case h_6 | h_30 | h_31 => exact get_bind
  case h_32 =>
    refine @bind _ _ _ _ _ fun p => ?_
    cases p with
    | int n =>
      refine @bind _ _ _ _ _ fun found => ?_
      cases found <;> infer_instance
    | _ => infer_instance
  case h_33 =>
    refine @bind _ _ _ _ _ fun p => ?_
    cases p with
    | int n =>
      refine @bind _ _ _ _ _ fun done => ?_
      split <;> infer_instance
    | _ => infer_instance
  all_goals infer_instance

end Ordinary

/-! ## Operands and frames -/

namespace Unraised

instance top : Unraised Vm.top := by
  unfold Vm.top
  refine @get_bind _ _ fun vm => ?_
  split <;> infer_instance

instance need (n : Nat) : Unraised (Vm.need n) := by
  unfold Vm.need
  refine @bind _ _ _ _ _ fun f => @get_bind _ _ fun vm => ?_
  split <;> infer_instance

instance below (n : Nat) : Unraised (Vm.below n) := by
  unfold Vm.below
  refine @get_bind _ _ fun vm => ?_
  dsimp only
  split <;> infer_instance

instance push (r : Ref) : Unraised (Vm.push r) := by
  unfold Vm.push; infer_instance

instance drop (n : Nat) : Unraised (Vm.drop n) := by
  unfold Vm.drop; infer_instance

instance peek (n : Nat) : Unraised (Vm.peek n) := by
  unfold Vm.peek
  refine @bind _ _ _ _ _ fun _ => @bind _ _ _ _ _ fun height =>
    @get_bind _ _ fun vm => ?_
  split <;> infer_instance

instance pop : Unraised Vm.pop := by
  unfold Vm.pop; infer_instance

instance peekMany (n : Nat) : Unraised (Vm.peekMany n) := by
  unfold Vm.peekMany
  exact @bind _ _ _ _ _ fun _ => @bind _ _ _ _ _ fun height =>
    @get_bind _ _ fun vm => inferInstance

instance replace (n : Nat) (r : Ref) : Unraised (Vm.replace n r) := by
  unfold Vm.replace; infer_instance

instance goto (addr : Nat) : Unraised (Vm.goto addr) := by
  unfold Vm.goto; infer_instance

instance fetch : Unraised Vm.fetch := by
  unfold Vm.fetch
  refine @bind _ _ _ _ _ fun f => ?_
  split <;> infer_instance

instance tick : Unraised Vm.tick := by
  unfold Vm.tick
  refine @bind _ _ _ _ _ fun _ => @get_bind _ _ fun vm => ?_
  split <;> infer_instance

instance leaveFrame : Unraised Vm.leaveFrame := by
  unfold Vm.leaveFrame; infer_instance

instance returnFrom (floor : Nat) (v : Ref) : Unraised (Vm.returnFrom floor v) := by
  unfold Vm.returnFrom
  refine @bind _ _ _ _ _ fun _ => @get_bind _ _ fun vm => ?_
  split <;> infer_instance

end Unraised

namespace Ordinary

/-! ## Instructions -/

instance constant (index : UInt8) : Ordinary (Vm.constant index) := by
  unfold Vm.constant
  refine @bind _ _ _ _ _ fun f => @bind _ _ _ _ _ fun p => ?_
  cases p with
  | code c =>
    dsimp only
    split <;> infer_instance
  | _ => infer_instance

instance nameAt (index : UInt8) : Ordinary (Vm.nameAt index) := by
  unfold Vm.nameAt
  refine @bind _ _ _ _ _ fun f => ?_
  split <;> infer_instance

instance frameVar? (frame : Ref) (name : String) : Ordinary (Vm.frameVar? frame name) := by
  unfold Vm.frameVar?
  refine @bind _ _ _ _ _ fun p => ?_
  cases p <;> infer_instance

instance moduleVar? (module : Option Ref) (name : String) :
    Ordinary (Vm.moduleVar? module name) := by
  unfold Vm.moduleVar?
  cases module with
  | none => infer_instance
  | some m =>
    refine @bind _ _ _ _ _ fun p => ?_
    cases p <;> infer_instance

instance scopedVar? (name : String) : Ordinary (Vm.scopedVar? name) := by
  unfold Vm.scopedVar?
  refine @bind _ _ _ _ _ fun f => @bind _ _ _ _ _ fun found => ?_
  cases found <;> infer_instance

instance loadName (name : String) : Ordinary (Vm.loadName name) := by
  unfold Vm.loadName
  refine @bind _ _ _ _ _ fun found => ?_
  cases found with
  | some var =>
    refine @bind _ _ _ _ _ fun value => ?_
    cases value <;> infer_instance
  | none =>
    refine @get_bind _ _ fun vm => ?_
    split
    · infer_instance
    · split <;> infer_instance

instance storeName (name : String) (value : Ref) : Ordinary (Vm.storeName name value) := by
  unfold Vm.storeName
  refine @bind _ _ _ _ _ fun found => ?_
  cases found with
  | some var => infer_instance
  | none =>
    refine @bind _ _ _ _ _ fun f => ?_
    split <;> infer_instance

instance captureVars (names : List String) (vars : NameMap Ref) :
    Ordinary (Vm.captureVars names vars) := by
  induction names generalizing vars with
  | nil => exact unraised (pure vars)
  | cons name rest ih =>
    unfold Vm.captureVars
    refine @bind _ _ _ _ _ fun found => ?_
    cases found <;> infer_instance

instance makeClosure (code : Ref) : Ordinary (Vm.makeClosure code) := by
  unfold Vm.makeClosure; infer_instance

instance fillHash (hash : Ref) : ∀ items, Ordinary (Vm.fillHash hash items)
  | [] => unraised (pure ())
  | [_] => unraised (pure ())
  | k :: v :: rest => by
    have := fillHash hash rest
    unfold Vm.fillHash
    infer_instance

instance executeArith (op : Arith) : Ordinary (Vm.executeArith op) := by
  unfold Vm.executeArith; infer_instance

/-- No instruction but a call runs out of room, and none raises a value. -/
theorem execute {op : Op} (hop : op ≠ .call) (i : Instr) : Ordinary (Vm.execute op i) := by
  cases op with
  | call => exact absurd rfl hop
  | jumpIfTrue =>
    refine @bind _ _ _ _ _ fun v => @bind _ _ _ _ _ fun b => ?_
    dsimp only
    split <;> infer_instance
  | jumpIfFalse =>
    refine @bind _ _ _ _ _ fun v => @bind _ _ _ _ _ fun b => ?_
    dsimp only
    split <;> infer_instance
  | _ =>
    unfold Vm.execute
    infer_instance

end Ordinary

namespace Vm

variable {method : Ref} {args : List Ref} {vm vm' : Vm} {n : Nat}

/-- Entering a method runs out of room if the limit of frames is reached, and then changes
nothing. -/
theorem activate_overflows :
    activate method args vm = .error (.raised (.stackOverflow n)) vm' ↔
      vm.callDepth ≥ vm.config.maxFrames ∧ n = vm.frames.size ∧ vm' = vm := by
  have hrun : activate method args vm =
      if vm.callDepth ≥ vm.config.maxFrames then
        Action.raise (.stackOverflow vm.frames.size) vm
      else prepare method args vm := by
    rw [activate_eq, bind_run]
    show (ite (vm.callDepth ≥ vm.config.maxFrames) _ _ : Action ActiveFrame) vm = _
    split <;> rfl
  rw [hrun]
  by_cases hfull : vm.callDepth ≥ vm.config.maxFrames
  · rw [if_pos hfull]
    constructor
    · rintro ⟨⟩
      exact ⟨hfull, rfl, rfl⟩
    · rintro ⟨-, rfl, rfl⟩
      rfl
  · rw [if_neg hfull]
    constructor
    · intro h
      exact absurd rfl ((Ordinary.raises h).ne_overflow n)
    · exact fun h => absurd h.1 hfull

theorem enter_overflows :
    enter method args vm = .error (.raised (.stackOverflow n)) vm' ↔
      vm.callDepth ≥ vm.config.maxFrames ∧ n = vm.frames.size ∧ vm' = vm := by
  rw [← @activate_overflows method args vm vm' n, enter, bind_run]
  cases activate method args vm with
  | ok f u => exact ⟨nofun, nofun⟩
  | error e u => constructor <;> (rintro ⟨⟩; rfl)

/-- In a loop of its own, also if the limit of loops is reached. -/
theorem enterLoop_overflows :
    enterLoop method args vm = .error (.raised (.stackOverflow n)) vm' ↔
      (vm.loops ≥ vm.config.maxNativeDepth ∨ vm.callDepth ≥ vm.config.maxFrames) ∧
        n = vm.frames.size ∧ vm' = vm := by
  rw [enterLoop_run]
  by_cases hfull : vm.loops ≥ vm.config.maxNativeDepth
  · rw [if_pos hfull]
    constructor
    · rintro ⟨⟩
      exact ⟨.inl hfull, rfl, rfl⟩
    · rintro ⟨-, rfl, rfl⟩
      rfl
  · rw [if_neg hfull, or_iff_right hfull,
      ← @enter_overflows method args vm vm' n, bind_run]
    cases enter method args vm with
    | ok x u => exact ⟨nofun, nofun⟩
    | error e u => constructor <;> (rintro ⟨⟩; rfl)

end Vm

/-! ## Steps that fail -/

namespace Machine

variable {m m' : Machine} {e : Error}

/-- What a machine was doing when it failed. -/
inductive Origin (m : Machine) (e : Error) : Machine → Prop where
  | instruction {floor base : Nat} {ks : List Kont} {vm : Vm} : m.mode = .running →
      m.konts = .loop floor base :: ks → Vm.stepLoop floor m.vm = .error (.raised e) vm →
      Origin m e ⟨vm, m.konts, .raising e⟩
  | call {callee : Ref} {args : List Ref} {vm : Vm} : m.mode = .calling callee args →
      Vm.call callee args m.vm = .error (.raised e) vm → Origin m e ⟨vm, m.konts, .raising e⟩
  | construct {cls : Ref} {args : List Ref} {vm : Vm} : m.mode = .constructing cls args →
      Vm.construct cls args m.vm = .error (.raised e) vm → Origin m e ⟨vm, m.konts, .raising e⟩
  | answer {request : Request} {a : Answer} {vm : Vm} : m.mode = .waiting request →
      answerValue a m.vm = .error (.raised e) vm → Origin m e ⟨vm, m.konts, .raising e⟩

section ContinueWith

variable {α : Type} {a : Action α} {vm : Vm} {konts : List Kont} {f : α → Vm → Machine}

theorem continueWith_raises (hf : ∀ x u, (f x u).mode ≠ .raising e) :
    (continueWith a vm konts f = .next m' ∧ m'.mode = .raising e) ↔
      ∃ u, a vm = .error (.raised e) u ∧ m' = ⟨u, konts, .raising e⟩ := by
  unfold continueWith
  constructor
  · rintro ⟨hm, hmode⟩
    cases hrun : a vm with
    | ok x u =>
      rw [hrun] at hm
      cases hm
      exact absurd hmode (hf x u)
    | error s u =>
      rw [hrun] at hm
      cases s with
      | raised e' =>
        cases hm
        cases hmode
        exact ⟨u, rfl, rfl⟩
      | _ => cases hm
  · rintro ⟨u, hrun, rfl⟩
    rw [hrun]
    exact ⟨rfl, rfl⟩

theorem continueWith_unraised [ha : Unraised a] (hf : ∀ x u, (f x u).mode ≠ .raising e)
    (hm : continueWith a vm konts f = .next m') : m'.mode ≠ .raising e := by
  intro hmode
  obtain ⟨u, hrun, -⟩ := (continueWith_raises hf).mp ⟨hm, hmode⟩
  exact ha.ne_raised vm e u hrun

end ContinueWith

theorem ofReply_ne_raising (konts : List Kont) (reply : Reply) (vm : Vm) :
    (ofReply konts reply vm).mode ≠ .raising e := by
  cases reply <;> rintro ⟨⟩

/-- Handing on a value does not fail. -/
theorem returning_ne_raising {v : Ref} {vm : Vm} {konts : List Kont}
    (hm : stepReturning v vm konts = .next m') : m'.mode ≠ .raising e := by
  rcases konts with _ | ⟨_ | _ | _ | _ | _, konts⟩
  case nil | cons.loop => cases hm
  case cons.fill | cons.guard =>
    cases hm
    rintro ⟨⟩
  case cons.operands => exact continueWith_unraised (by rintro _ _ ⟨⟩) hm
  case cons.attempt =>
    have htrue : Unraised (do Vm.newArray [← Vm.bool true, v]) :=
      ⟨fun vm => (Unraised.alloc _ _).ne_raised vm⟩
    exact continueWith_unraised (by rintro _ _ ⟨⟩) hm

theorem Origin.of_step (hmode : ∀ e, m.mode ≠ .raising e) (hm : m.step = .next m')
    (hraising : m'.mode = .raising e) : m.Origin e m' := by
  obtain ⟨vm, konts, mode⟩ := m
  cases mode with
  | running =>
    rcases konts with _ | ⟨k, konts⟩
    · cases hm
    cases k with
    | loop floor base =>
      obtain ⟨u, hrun, rfl⟩ := (continueWith_raises (by
        rintro (_ | _ | _ | _) _ ⟨⟩)).mp ⟨hm, hraising⟩
      exact .instruction rfl rfl hrun
    | _ => cases hm
  | calling callee args =>
    obtain ⟨u, hrun, rfl⟩ := (continueWith_raises (ofReply_ne_raising konts)).mp ⟨hm, hraising⟩
    exact .call rfl hrun
  | constructing cls args =>
    obtain ⟨u, hrun, rfl⟩ := (continueWith_raises (ofReply_ne_raising konts)).mp ⟨hm, hraising⟩
    exact .construct rfl hrun
  | returning v => exact absurd hraising (returning_ne_raising hm)
  | raising e => exact absurd rfl (hmode e)
  | waiting request => cases hm

theorem Origin.of_resume {request : Request} (hmode : m.mode = .waiting request) {a : Answer}
    (hm : m.resume a = .next m') (hraising : m'.mode = .raising e) : m.Origin e m' := by
  obtain ⟨u, hrun, rfl⟩ := (continueWith_raises (by rintro _ _ ⟨⟩)).mp ⟨hm, hraising⟩
  exact .answer hmode hrun

end Machine
end ObjectMachine
