import ObjectMachine.Machine
import ObjectMachine.Proofs.Scopes.Acts

/-!
# ObjectMachine.Proofs.Scopes.Actions

Which actions only add objects, and what the others change.

* `Vm.loadCode_yields` — a loaded unit has the constants of the unit.
* `Heap.Stocked` — a module with its members, which look names up in the module.
* `Vm.importModule_yields` — a module that is imported is new while its members are put in it.
* `Vm.unpackBody_yields` — the variables of a closure that arrives are new ones.
* `Acts.runNative` — a native function changes at most one object, unless it collects.
-/

namespace ObjectMachine

open ObjectMachine.Action

namespace Acts

variable {α : Type}

/-! ## Objects, classes and names -/

instance trace (on : Channels → Bool) (channel : String) (text : Vm → String) :
    Adds (Vm.trace on channel text) := by
  refine changingNames (fun vm => ?_) (fun vm => ?_) fun vm => ?_
  · split <;> rfl
  · split <;> rfl
  · split <;> rfl

instance new (k : Builtin) (p : Payload) [p.Nameless] : Adds (Vm.new k p) :=
  reading (f := fun vm => Vm.alloc (k.ref vm.heap.id) p) fun _ => inferInstance

instance newInt (i : Int64) : Adds (Vm.newInt i) := new _ _

instance newFloat (x : Float) : Adds (Vm.newFloat x) := new _ _

instance newBytes (b : ByteArray) : Adds (Vm.newBytes b) := new _ _

instance newStr (s : String) : Adds (Vm.newStr s) := newBytes _

instance newArray (items : List Ref) : Adds (Vm.newArray items) := new _ _

instance newHash : Adds Vm.newHash := new _ _

instance newVar (value : Option Ref) : Adds (Vm.newVar value) := new _ _

instance newLength (n : Nat) : Adds (Vm.newLength n) := newInt _

instance newStrs (ss : List String) : Adds (Vm.newStrs ss) := by
  induction ss with
  | nil => unfold Vm.newStrs; infer_instance
  | cons s rest ih => unfold Vm.newStrs; infer_instance

/-- One entry of a hash gets another value, or there is one more. -/
theorem hashSet_cases (hash key value : Ref) (vm : Vm) :
    final (Vm.hashSet hash key value vm) = vm ∨
      ∃ t u, vm.heap.payload hash = .ok (.hash t) ∧ (∀ A, (Payload.hash t).Changes A (.hash u)) ∧
        final (Vm.hashSet hash key value vm) =
          { vm with heap := vm.heap.update hash (Payload.setTable u) } := by
  unfold Vm.hashSet
  rcases Reads.cases (Vm.payload hash) vm with ⟨p, hp⟩ | ⟨e, hp⟩
  · rw [bind_ok hp]
    cases p with
    | hash t =>
      dsimp only
      obtain ⟨ht, -⟩ := Vm.payload_eq_ok.mp hp
      rcases Reads.cases (Action.ofHeap fun h => h.position? t key) vm with ⟨found, hfound⟩ | ⟨e, he⟩
      · rw [bind_ok hfound]
        cases found with
        | some i => exact .inr ⟨t, _, ht, fun _ => .replace t i value, rfl⟩
        | none => exact .inr ⟨t, _, ht, fun _ => .append t key value, rfl⟩
      · rw [bind_error he]
        exact .inl rfl
    | _ => exact .inl (Reads.state _)
  · rw [bind_error hp]
    exact .inl rfl

instance hashSet (A : Prop) (hash key value : Ref) :
    Acts (Payload.Changes A) (Vm.hashSet hash key value) where
  works vm hf := by
    rcases hashSet_cases hash key value vm with heq | ⟨t, u, ht, hchanges, heq⟩
    · rw [heq]
      exact .refl hf
    · rw [heq]
      exact .update hf ht (hchanges A) (.setTable u) fun _ _ _ => Payload.binds_setTable

instance allocError (message : String) (cause : Option Ref) (lines : List String) :
    Adds (Vm.allocError message cause lines) := new _ _

instance newError (message : String) (cause : Option Ref) : Adds (Vm.newError message cause) :=
  reading (f := fun vm => Vm.allocError message cause vm.backtrace) fun _ => inferInstance

instance newNative (name : String) (f : Native) : Adds (Vm.newNative name f) :=
  Vm.Yields.adds fun _ hf => .new (.refl hf) _ (fun _ => .method .empty nofun) (by rintro _ ⟨⟩)
    (by rintro - _ ⟨⟩; exact .native f) rfl

/-- A copy of a method has the names of the method. -/
instance bindMethod (method receiver : Ref) : Adds (Vm.bind method receiver) := by
  unfold Vm.bind
  refine inspecting fun p vm hf hp => ?_
  cases p with
  | method m =>
    refine (Vm.Yields.new (.refl hf) _ (fun hv => ?_) (by rintro _ ⟨⟩) (fun hw => ?_) rfl).works
    · exact .method (fun name x hx => .inl ⟨method, _, hp, hx⟩)
        fun r hr => hv.scopes r (.method hp hr)
    · rintro _ ⟨⟩
      exact hw method m hp
  | _ => exact .refl hf

instance newTask (t : TaskId) : Adds (Vm.newTask t) :=
  reading (f := fun vm => Vm.new .task (.task ⟨t, t == vm.task⟩)) fun _ => inferInstance

instance currentTask : Adds Vm.currentTask :=
  reading (f := fun vm => Vm.newTask vm.task) fun _ => inferInstance

end Acts

namespace Vm

variable {v₀ v : Vm}

/-- A method with the code, the variables and the module that its body needs. -/
theorem newMethod_yields (h : v₀.Works Eq v) (name : String) {body : Body} (receiver : Option Ref)
    (hbody : body.Whole v.heap) (hvars : v₀.Neat → v₀.Gathers v body.bindings)
    (hmodule : v₀.Neat → ∀ r, body.module? = some r → v.heap.IsModule r) :
    v₀.Yields v (newMethod name body receiver) fun v' r =>
      v'.heap.payload r = .ok (.method ⟨name, body, receiver⟩) ∧
        v.heap.Turns (fun _ => Eq) v'.heap :=
  (Yields.new h .method (fun hv => .method (hvars hv) (hmodule hv)) (by rintro _ ⟨⟩)
    (by rintro - _ ⟨⟩; exact hbody) rfl).imp fun _ _ _ hr => hr.2

/-- A variable that was just made is loose. -/
theorem newVar_yields (h : v₀.Works Eq v) (value : Option Ref) :
    v₀.Yields v (newVar value) fun v' x =>
      v.Works Eq v' ∧ v.heap.contains x = false ∧ (v₀.Neat → v₀.Loose v' x) ∧
        v'.heap.payload x = .ok (.var value) := by
  have hf := h.heap.freeList
  refine ((Yields.of_adds hf).lift h).imp_run fun v' x hrun _ hw => ⟨hw.1, ?_⟩
  unfold newVar at hrun
  rw [new_eq] at hrun
  cases hrun
  exact ⟨Heap.place_fresh hf _,
    fun hv => .of_place (h.names hv) hf (fun _ => h.heap.contains) _ _, Heap.payload_place_self hf _⟩

mutual

/-- A unit is loaded with its constants. -/
theorem loadCode_yields : ∀ (unit : CodeUnit) {v : Vm}, v.heap.FreeList →
    v.Yields v (loadCode unit) fun v' r => v'.heap.Loads unit r
  | ⟨name, code, consts, names, locals, freevars, arity⟩, v, hf => by
    unfold loadCode
    refine (loadConstants_yields consts hf).bind fun refs v₁ hw hall => ?_
    refine (Yields.new hw .code (fun _ => .of_nameless ?_ ?_) ?_ (by rintro - _ ⟨⟩) rfl).imp
      fun v₂ r _ hr => ?_
    · exact fun _ _ => id
    · exact fun _ => nofun
    · rintro _ ⟨⟩
      exact hall
    · exact Heap.loads_iff.mpr ⟨_, hr.2.1, hr.2.2.preserves.denoteAll hall⟩

theorem loadConstant_yields : ∀ (c : Constant) {v : Vm}, v.heap.FreeList →
    v.Yields v (loadConstant c) fun v' r => v'.heap.Denotes c r
  | .nil, v, hf => by
    unfold loadConstant
    refine ⟨.refl hf, fun r v' hrun => ?_⟩
    cases hrun
    simp only [Heap.Denotes]
  | .int i, v, hf => by
    unfold loadConstant
    refine (Yields.newPlain hf .int _).imp fun v' r _ hr => ?_
    simp only [Heap.Denotes]
    exact hr.2.1
  | .float x, v, hf => by
    unfold loadConstant
    refine (Yields.newPlain hf .float _).imp fun v' r _ hr => ?_
    simp only [Heap.Denotes]
    exact hr.2.1
  | .str s, v, hf => by
    unfold loadConstant
    refine (Yields.newPlain hf .str _).imp fun v' r _ hr => ?_
    simp only [Heap.Denotes]
    exact hr.2.1
  | .code u, v, hf => by
    unfold loadConstant
    refine (loadCode_yields u hf).imp fun v' r _ hr => ?_
    simp only [Heap.Denotes]
    exact hr

theorem loadConstants_yields : ∀ (cs : List Constant) {v : Vm}, v.heap.FreeList →
    v.Yields v (loadConstants cs) fun v' rs => v'.heap.DenoteAll cs rs
  | [], v, hf => by
    unfold loadConstants
    refine .return_ (.refl hf) ?_
    simp only [Heap.DenoteAll]
  | c :: rest, v, hf => by
    unfold loadConstants
    refine (loadConstant_yields c hf).bind fun r v₁ hw hr => ?_
    refine ((loadConstants_yields rest hw.heap.freeList).lift hw).bind fun rs v₂ hw₂ hrs => ?_
    refine .return_ hw₂ ?_
    simp only [Heap.DenoteAll]
    exact ⟨hrs.1.evolves.preserves.denotes hr, hrs.2⟩

end

theorem newBytecodeMethod_yields (h : v₀.Works Eq v) (unit : CodeUnit) {module : Option Ref}
    (hmodule : v₀.Neat → ∀ r, module = some r → v.heap.IsModule r) :
    v₀.Yields v (newBytecodeMethod unit module) fun v' r => v.heap.Turns (fun _ => Eq) v'.heap ∧
      ∃ code, v'.heap.payload r = .ok (.method ⟨unit.name, .bytecode code module, none⟩) ∧
        v'.heap.Loads unit code := by
  unfold newBytecodeMethod
  refine ((loadCode_yields unit h.heap.freeList).lift h).bind fun code v₁ hw hcode => ?_
  refine (newMethod_yields hw unit.name none (.bytecode hcode.2.isCode) (fun _ => .empty)
    fun hv r hr => ?_).imp fun v₂ r _ ⟨hr, ht⟩ => ?_
  · exact hcode.1.evolves.isModule (hmodule hv r hr)
  · exact ⟨hcode.1.heap.trans_of ht fun _ _ _ _ _ hpq hqs => hpq.trans hqs, code, hr,
      ht.preserves.loads hcode.2⟩

end Vm

/-! ## Modules -/

namespace Heap

variable {h h' : Heap} {name : String} {module var x : Ref} {members : List (String × Member)}

/-- A method is made from a member of a module: one over a unit looks names up in the module. -/
def MadeFrom (h : Heap) (module : Ref) : Member → Ref → Prop
  | .native f, x => ∃ m, h.payload x = .ok (.method m) ∧ m.body = .native f
  | .code unit, x => ∃ m code, h.payload x = .ok (.method m) ∧
      m.body = .bytecode code (some module) ∧ h.Loads unit code

/-- A module of a name whose names are those of the given members, each bound to a variable that
holds a method made from such a member. -/
def Stocked (h : Heap) (name : String) (members : List (String × Member)) (module : Ref) : Prop :=
  ∃ d, h.payload module = .ok (.module d) ∧ d.name = name ∧
    (∀ k var, d.locals.find? k = some var → ∃ member x, (k, member) ∈ members ∧
      h.payload var = .ok (.var (some x)) ∧ h.MadeFrom module member x) ∧
    ∀ k member, (k, member) ∈ members → ∃ var, d.locals.find? k = some var

theorem MadeFrom.keep (hkeep : h.Preserves (fun _ => True) h') {member : Member}
    (hx : h.MadeFrom module member x) : h'.MadeFrom module member x := by
  cases member with
  | native f =>
    obtain ⟨m, hm, hbody⟩ := hx
    exact ⟨m, hkeep.payload _ _ trivial trivial hm, hbody⟩
  | code unit =>
    obtain ⟨m, code, hm, hbody, hcode⟩ := hx
    exact ⟨m, code, hkeep.payload _ _ trivial trivial hm, hbody, hkeep.loads hcode⟩

theorem Stocked.keep (ht : h.Turns (fun _ => Eq) h') (hs : h.Stocked name members module) :
    h'.Stocked name members module := by
  have hkeep : ∀ {r p}, h.payload r = .ok p → h'.payload r = .ok p := fun hp => by
    obtain ⟨_, hq, rfl⟩ := ht.payload hp
    exact hq
  obtain ⟨d, hd, hname, hlocals, hmembers⟩ := hs
  refine ⟨d, hkeep hd, hname, fun k var hvar => ?_, hmembers⟩
  obtain ⟨member, x, hmem, hvalue, hmade⟩ := hlocals k var hvar
  exact ⟨member, x, hmem, hkeep hvalue, hmade.keep ht.preserves⟩

theorem Stocked.empty (hmodule : h.payload module = .ok (.module ⟨name, {}⟩)) :
    h.Stocked name [] module :=
  ⟨_, hmodule, rfl, fun _ _ hfound => (nomatch hfound), fun _ _ hmem => absurd hmem List.not_mem_nil⟩

/-- One more member. -/
theorem Stocked.addLocal (hs : h.Stocked name members module) {k : String} {member : Member}
    (hvar : h.payload var = .ok (.var (some x))) (hmade : h.MadeFrom module member x) :
    (h.update module (Payload.addLocal k var)).Stocked name (members ++ [(k, member)]) module := by
  have hpreserves := h.preserves_update module (f := Payload.addLocal k var)
    fun p hp => Payload.addLocal_eq (.inl hp)
  have hvalue : ∀ {y value}, h.payload y = .ok (.var value) →
      (h.update module (Payload.addLocal k var)).payload y = .ok (.var value) := fun hy => by
    obtain ⟨q, hq, rfl | rfl⟩ := payload_update_kept _ (Payload.addLocal k var) hy <;>
      exact hq
  obtain ⟨d, hd, hname, hlocals, hmembers⟩ := hs
  refine ⟨{ d with locals := d.locals.insert k var }, payload_update_self hd, hname,
    fun n y hy => ?_, fun n other hmem => ?_⟩
  · by_cases hn : n = k
    · subst hn
      have hsome : some var = some y := (NameMap.find?_insert_self _ _ _).symm.trans hy
      obtain rfl := Option.some.inj hsome
      exact ⟨member, x, by simp, hvalue hvar, hmade.keep hpreserves⟩
    · obtain ⟨other, z, hmem, hz, hother⟩ := hlocals n y ((NameMap.find?_insert_ne hn).symm.trans hy)
      exact ⟨other, z, List.mem_append_left _ hmem, hvalue hz, hother.keep hpreserves⟩
  · by_cases hn : n = k
    · exact ⟨var, hn ▸ NameMap.find?_insert_self _ _ _⟩
    · have hold : (n, other) ∈ members := by simpa [hn] using hmem
      obtain ⟨y, hy⟩ := hmembers n other hold
      exact ⟨y, (NameMap.find?_insert_ne hn).trans hy⟩

theorem Stocked.isModule (hs : h.Stocked name members module) : h.IsModule module := by
  obtain ⟨d, hd, -⟩ := hs
  exact ⟨d, hd⟩

theorem Stocked.moduleNamed (hs : h.Stocked name members module) : h.ModuleNamed name module := by
  obtain ⟨d, hd, rfl, -⟩ := hs
  exact ⟨_, hd, rfl⟩

end Heap

namespace Vm

variable {v₀ v : Vm}

theorem newMember_yields (h : v₀.Works Eq v) {module : Ref} (hmodule : v.heap.IsModule module)
    (name : String) (member : Member) :
    v₀.Yields v (newMember module name member) fun v' x =>
      v.heap.Turns (fun _ => Eq) v'.heap ∧ v'.heap.MadeFrom module member x := by
  cases member with
  | native f =>
    have hnone : ∀ r, (Body.native f).module? = some r → v.heap.IsModule r := nofun
    exact (newMethod_yields h name none (.native f) (fun _ => .empty) fun _ => hnone).imp
      fun _ _ _ hr => ⟨hr.2, _, hr.1, rfl⟩
  | code unit =>
    refine (newBytecodeMethod_yields h unit fun _ r hr => ?_).imp
      fun _ _ _ ⟨ht, code, hr, hcode⟩ => ⟨ht, _, code, hr, rfl, hcode⟩
    cases hr
    exact hmodule

/-- The members of a module that is new, after some others. -/
theorem importMembers_yields {module : Ref} {name : String} {done : List (String × Member)}
    (members : List (String × Member)) (h : v₀.Works Eq v)
    (hnew : v₀.heap.contains module = false) (hmodule : v.heap.Stocked name done module) :
    v₀.Yields v (importMembers module members) fun v' _ =>
      v'.heap.Stocked name (done ++ members) module := by
  induction members generalizing v done with
  | nil =>
    rw [List.append_nil]
    exact .return_ h hmodule
  | cons m rest ih =>
    obtain ⟨k, member⟩ := m
    unfold importMembers
    refine (newMember_yields h hmodule.isModule k member).bind fun method v₁ hw₁ hmade => ?_
    refine (newVar_yields hw₁ (some method)).bind fun var v₂ hw₂ hvar => ?_
    obtain ⟨hthere, -, hloose, hvalue⟩ := hvar
    have hmade₂ := hmade.2.keep hthere.evolves.preserves
    have hstocked := (hmodule.keep hmade.1).keep hthere.heap
    have hlive := hstocked.moduleNamed.contains
    have hadded := hw₂.addLocal hnew hlive k hloose
    have hmore := hstocked.addLocal (k := k) hvalue hmade₂
    refine (Yields.modifyHeap hadded (Q := fun v' _ =>
      v'.heap.Stocked name (done ++ [(k, member)]) module) hmore).bind fun _ v₃ hw₃ hmore => ?_
    rw [List.append_cons]
    exact ih hw₃ hmore

/-- The task's copy of a module, which it has or which is made now. -/
theorem importModule_yields (name : String) (hf : v.heap.FreeList) :
    v.Yields v (importModule name) fun v' r => (v.Neat → v'.heap.IsModule r) ∧
      (v.Catalogued → v'.heap.ModuleNamed name r) ∧
      (v.modules.find? name = none → ∃ spec, v.registry.find? name = some spec ∧
        v'.heap.Stocked name spec.members.entries r) := by
  unfold importModule
  refine Yields.get_bind ?_
  cases hfound : v.modules.find? name with
  | some m =>
    exact .return_ (.refl hf) ⟨fun hv => hv.scopes m (.table hfound),
      fun hv => (hv name m).mp hfound, nofun⟩
  | none =>
    dsimp only
    refine Yields.get_bind ?_
    cases hspec : v.registry.find? name with
    | none => exact .fails (.refl hf)
    | some spec =>
      dsimp only
      refine .bind_run (new_eq v .module _) (.bind_run rfl ?_)
      have hself := Heap.payload_place_self hf ⟨Builtin.module.ref v.heap.id, .module ⟨name, {}⟩⟩
      refine (importMembers_yields spec.members.entries (.enterModule hf _ hfound)
        (Heap.place_fresh hf _) (.empty hself)).bind fun _ v₃ hw₃ hstocked => ?_
      refine ((Yields.of_adds (a := trace _ _ _) hw₃.heap.freeList).lift hw₃).bind
        fun _ v₄ hw₄ ht => ?_
      have hkept := hstocked.keep ht.1.heap
      exact .return_ hw₄ ⟨fun _ => hkept.isModule, fun _ => hkept.moduleNamed,
        fun _ => ⟨spec, rfl, hkept⟩⟩

end Vm

namespace Acts

variable {α : Type}

instance loadCode (unit : CodeUnit) : Adds (Vm.loadCode unit) :=
  Vm.Yields.adds fun _ => Vm.loadCode_yields unit

instance importModule (name : String) : Adds (Vm.importModule name) :=
  Vm.Yields.adds fun _ => Vm.importModule_yields name

instance registering (name : String) (r : Ref) :
    Adds (modify fun vm => { vm with classes := vm.classes.insert name r } : Action Unit) :=
  changingNames (fun _ => rfl) (fun _ => rfl) fun _ => rfl

instance addClass (c : Class) : Adds (Vm.addClass c) := by
  unfold Vm.addClass; infer_instance

instance classNew (name : String) (super : Option Ref) (size : Nat) :
    Adds (Vm.classNew name super size) := by
  unfold Vm.classNew
  cases super <;> dsimp only <;> infer_instance

instance defineMethod (A : Prop) (cls : Ref) (name : String) (method : Ref) :
    Acts (Payload.Changes A) (Vm.defineMethod cls name method) := by
  have hdefine : Acts (Payload.Changes A)
      (Action.modifyHeap fun h => h.update cls (Payload.addMethod name method)) :=
    update cls (.addMethod name method) fun _ _ _ => Payload.binds_addMethod
  unfold Vm.defineMethod; infer_instance

instance defineNative (A : Prop) (cls : Ref) (name : String) (f : Native) :
    Acts (Payload.Changes A) (Vm.defineNative cls name f) := by
  unfold Vm.defineNative; infer_instance

instance setGlobal (name : String) (value : Ref) : Adds (Vm.setGlobal name value) :=
  changingNames (fun _ => rfl) (fun _ => rfl) fun _ => rfl

instance raisedValue (e : Error) : Adds (Vm.raisedValue e) := by
  unfold Vm.raisedValue
  split <;> infer_instance

/-! ## Operators -/

instance arith (op : Arith) (a b : Ref) : Adds (Vm.arith op a b) := by
  unfold Vm.arith
  refine after fun x => after fun y => ?_
  split
  · split <;> infer_instance
  · infer_instance

instance runBinary (f : BinaryFn) (a b : Ref) : Adds (Vm.runBinary f a b) := by
  unfold Vm.runBinary
  cases f with
  | strMul =>
    refine after fun n => after fun x => ?_
    dsimp only
    split <;> infer_instance
  | _ => infer_instance

instance binary (op : Arith) (a b : Ref) : Adds (Vm.binary op a b) := by
  unfold Vm.binary; infer_instance

instance strOf (r : Ref) : Adds (Vm.strOf r) := by
  unfold Vm.strOf; infer_instance

instance getMethod (obj : Ref) (name : String) : Adds (Vm.getMethod obj name) := by
  unfold Vm.getMethod
  refine after fun k => after fun found => ?_
  cases found <;> infer_instance

instance getClassAttr (cls : Ref) (name : String) : Adds (Vm.getClassAttr cls name) := by
  unfold Vm.getClassAttr
  split
  · infer_instance
  · split
    · refine after fun c => ?_
      split <;> infer_instance
    · refine after fun found => ?_
      cases found <;> infer_instance

instance getMember (module : Ref) (name : String) : Adds (Vm.getMember module name) := by
  unfold Vm.getMember
  refine after fun p => ?_
  cases p with
  | module m =>
    dsimp only
    split
    · infer_instance
    · refine after fun v => ?_
      cases v <;> infer_instance
  | _ => infer_instance

instance getErrorAttr (err : Ref) (name : String) : Adds (Vm.getErrorAttr err name) := by
  unfold Vm.getErrorAttr
  refine after fun p => ?_
  cases p with
  | error e =>
    dsimp only
    split
    · infer_instance
    · split
      · split <;> infer_instance
      · split <;> infer_instance
  | _ => infer_instance

instance runGetAttr (f : GetAttrFn) (obj : Ref) (name : String) :
    Adds (Vm.runGetAttr f obj name) := by
  cases f <;> unfold Vm.runGetAttr <;> infer_instance

instance getAttr (obj : Ref) (name : String) : Adds (Vm.getAttr obj name) := by
  unfold Vm.getAttr; infer_instance

instance runGetItem (f : GetItemFn) (obj key : Ref) : Adds (Vm.runGetItem f obj key) := by
  unfold Vm.runGetItem
  cases f with
  | str =>
    refine after fun i => after fun b => ?_
    split <;> infer_instance
  | array =>
    refine after fun i => after fun items => ?_
    split
    · split <;> infer_instance
    · infer_instance
  | hash =>
    refine after fun t => after fun found => ?_
    cases found with
    | some i =>
      dsimp only
      split <;> infer_instance
    | none => infer_instance
  | key => infer_instance

instance getItem (obj key : Ref) : Adds (Vm.getItem obj key) := by
  unfold Vm.getItem; infer_instance

/-! ## Hashes that are filled -/

/-- An entry of a hash that is new. -/
theorem hashSet_works {v₀ v : Vm} {hash : Ref} (h : v₀.Works Eq v)
    (hnew : v₀.heap.contains hash = false) (hthere : v.heap.contains hash = true)
    (key value : Ref) :
    v₀.Yields v (Vm.hashSet hash key value) fun v' _ => v'.heap.contains hash = true := by
  have hboth : v₀.Works Eq (final (Vm.hashSet hash key value v)) ∧
      (final (Vm.hashSet hash key value v)).heap.contains hash = true := by
    rcases hashSet_cases hash key value v with heq | ⟨t, u, -, -, heq⟩
    · rw [heq]
      exact ⟨h, hthere⟩
    · rw [heq]
      exact ⟨h.refill hnew hthere (.setTable u) fun _ _ _ => Payload.binds_setTable,
        Heap.contains_update.mpr hthere⟩
  refine ⟨hboth.1, fun _ v' hrun => ?_⟩
  have hlive := hboth.2
  rwa [hrun] at hlive

/-- A hash is made and filled. -/
theorem filling {fill : Ref → Action Unit} {after : Ref → Action α}
    (hfill : ∀ {v₀ v : Vm} {hash : Ref}, v₀.Works Eq v → v₀.heap.contains hash = false →
      v.heap.contains hash = true → v₀.Yields v (fill hash) fun _ _ => True)
    [hafter : ∀ hash, Adds (after hash)] :
    Adds (do
      let hash ← Vm.newHash
      fill hash
      after hash) := by
  refine Vm.Yields.adds (Q := fun _ _ _ => True) fun v hf => ?_
  refine (Vm.Yields.newPlain hf .hash _).bind fun hash v₁ hw hr => ?_
  refine (hfill hw hr.1 (Heap.contains_of_payload hr.2.1)).bind fun _ v₂ hw₂ _ => ?_
  exact ((Vm.Yields.of_adds hw₂.heap.freeList).lift hw₂).imp fun _ _ _ _ => trivial

end Acts

/-! ## Copies -/

namespace Vm

variable {v₀ v : Vm}

theorem importOption_yields (module : Option String) (hf : v.heap.FreeList) :
    v.Yields v (importOption module) fun v' found =>
      (v.Neat → ∀ r, found = some r → v'.heap.IsModule r) ∧
      (v.Catalogued → ∀ name, module = some name → ∃ r, found = some r ∧
        v'.heap.ModuleNamed name r) := by
  cases module with
  | none => exact .return_ (.refl hf) ⟨fun _ _ => nofun, fun _ _ => nofun⟩
  | some name =>
    unfold importOption
    refine (importModule_yields name hf).bind fun m v₁ hw hm => .return_ hw ⟨fun hv r hr => ?_, ?_⟩
    · cases hr
      exact hm.1 hv
    · rintro hv _ ⟨⟩
      exact ⟨m, rfl, hm.2.1 hv⟩

mutual

theorem unpack_adds : ∀ p, Adds (unpack p)
  | .nil => by unfold unpack; infer_instance
  | .bool _ => by unfold unpack; infer_instance
  | .int _ => by unfold unpack; infer_instance
  | .float _ => by unfold unpack; infer_instance
  | .str _ => by unfold unpack; infer_instance
  | .array items => by
    have := unpackItems_adds items
    unfold unpack
    infer_instance
  | .hash entries => by
    unfold unpack
    exact Acts.filling fun hw hnew hthere => unpackEntries_yields entries hw hnew hthere
  | .error _ cause _ => by
    have := unpackOption_adds cause
    unfold unpack
    infer_instance
  | .method name body receiver => by
    have := unpackOption_adds receiver
    unfold unpack
    refine Acts.after fun receiver => ⟨fun v hf => ?_⟩
    have hmade : v.Yields v (do newMethod name (← unpackBody body) receiver) fun _ _ => True :=
      (unpackBody_yields body hf).bind fun body v₁ hw hbody =>
        (newMethod_yields hw name receiver hbody.1 (fun hv => (hbody.2.1 hv).1)
          fun hv => (hbody.2.1 hv).2).imp fun _ _ _ _ => trivial
    exact hmade.works
  | .task _ => by unfold unpack; infer_instance

/-- The variables of a closure that arrives are new, and its module is the task's own. -/
theorem unpackBody_yields : ∀ (body : PackedBody) {v : Vm}, v.heap.FreeList →
    v.Yields v (unpackBody body) fun v' b => b.Whole v'.heap ∧
      (v.Neat → v.Gathers v' b.bindings ∧ ∀ r, b.module? = some r → v'.heap.IsModule r) ∧
      (v.Catalogued → ∀ name, body.module? = some name → ∃ r, b.module? = some r ∧
        v'.heap.ModuleNamed name r)
  | .native f, v, hf => by
    unfold unpackBody
    exact .return_ (.refl hf) ⟨.native f, fun _ => ⟨.empty, nofun⟩, fun _ _ => nofun⟩
  | .bytecode unit module, v, hf => by
    unfold unpackBody
    refine (importOption_yields module hf).bind fun found v₁ hw hmodule => ?_
    refine ((loadCode_yields unit hw.heap.freeList).lift hw).bind fun code v₂ hw₂ hcode => ?_
    refine .return_ hw₂ ⟨.bytecode hcode.2.isCode, fun hv => ⟨.empty, fun r hr => ?_⟩,
      fun hv name hname => ?_⟩
    · exact hcode.1.evolves.isModule (hmodule.1 hv r hr)
    · obtain ⟨r, hr, hnamed⟩ := hmodule.2 hv name hname
      exact ⟨r, hr, hcode.1.evolves.moduleNamed hnamed⟩
  | .closure unit module bindings, v, hf => by
    unfold unpackBody
    refine (importOption_yields module hf).bind fun found v₁ hw hmodule => ?_
    refine ((loadCode_yields unit hw.heap.freeList).lift hw).bind fun code v₂ hw₂ hcode => ?_
    refine ((unpackBindings_yields bindings {} (.refl hw₂.heap.freeList) List.nodup_nil
      fun _ => .empty).lift hw₂).bind fun vars v₃ hw₃ hvars => ?_
    refine .return_ hw₃ ⟨?_, fun hv => ⟨?_, fun r hr => ?_⟩, fun hv name hname => ?_⟩
    · exact .closure (hvars.1.evolves.isCode hcode.2.isCode) hvars.2.1
    · exact (hvars.2.2 (hw₂.names hv).neat).since fun _ => hw₂.heap.contains
    · exact hvars.1.evolves.isModule (hcode.1.evolves.isModule (hmodule.1 hv r hr))
    · obtain ⟨r, hr, hnamed⟩ := hmodule.2 hv name hname
      exact ⟨r, hr, hvars.1.evolves.moduleNamed (hcode.1.evolves.moduleNamed hnamed)⟩

theorem unpackItems_adds : ∀ items, Adds (unpackItems items)
  | [] => by unfold unpackItems; infer_instance
  | p :: rest => by
    have := unpack_adds p
    have := unpackItems_adds rest
    unfold unpackItems
    infer_instance

theorem unpackEntries_yields {hash : Ref} : ∀ (entries : List (Packed × Packed)) {v₀ v : Vm},
    v₀.Works Eq v → v₀.heap.contains hash = false → v.heap.contains hash = true →
    v₀.Yields v (unpackEntries hash entries) fun _ _ => True
  | [], v₀, v, hw, _, _ => by
    unfold unpackEntries
    exact .return_ hw trivial
  | (k, x) :: rest, v₀, v, hw, hnew, hthere => by
    have := unpack_adds k
    have := unpack_adds x
    unfold unpackEntries
    refine ((Yields.of_adds hw.heap.freeList).lift hw).bind fun key v₁ hw₁ hk => ?_
    refine ((Yields.of_adds hw₁.heap.freeList).lift hw₁).bind fun value v₂ hw₂ hx => ?_
    refine (Acts.hashSet_works hw₂ hnew (hx.1.heap.contains (hk.1.heap.contains hthere)) key
      value).bind fun _ v₃ hw₃ hthere => ?_
    exact unpackEntries_yields rest hw₃ hnew hthere

theorem unpackOption_adds : ∀ value, Adds (unpackOption value)
  | none => by unfold unpackOption; infer_instance
  | some p => by
    have := unpack_adds p
    unfold unpackOption
    infer_instance

/-- Each captured name gets a variable of its own. -/
theorem unpackBindings_yields : ∀ (bindings : List (String × Option Packed)) (vars : NameMap Ref)
    {v₀ v : Vm}, v₀.Works Eq v → vars.names.Nodup → (v₀.Neat → v₀.Gathers v vars) →
    v₀.Yields v (unpackBindings bindings vars) fun v' made =>
      made.names.Nodup ∧ (v₀.Neat → v₀.Gathers v' made)
  | [], vars, v₀, v, hw, hnames, hvars => by
    unfold unpackBindings
    exact .return_ hw ⟨hnames, hvars⟩
  | (name, value) :: rest, vars, v₀, v, hw, hnames, hvars => by
    have := unpackOption_adds value
    unfold unpackBindings
    refine ((Yields.of_adds hw.heap.freeList).lift hw).bind fun value v₁ hw₁ hx => ?_
    refine (newVar_yields hw₁ value).bind fun var v₂ hw₂ hvar => ?_
    refine unpackBindings_yields rest _ hw₂ (NameMap.names_insert_nodup hnames) fun hv => ?_
    -- the variables so far were there before this one
    have hvars₁ := (hvars hv).keep (hx.1.names (hw.names hv).neat) hx.1.heap
    have hvars₂ := hvars₁.keep (hvar.1.names (hw₁.names hv).neat) hvar.1.heap
    refine hvars₂.insert_loose (hvar.2.2.1 hv) fun n hn => ?_
    have hlive := (hvars₁.isVar (hw₁.names hv).neat hn).contains
    rw [hvar.2.1] at hlive
    cases hlive

end

end Vm

namespace Acts

variable {α : Type}

instance unpack (p : Packed) : Adds (Vm.unpack p) := Vm.unpack_adds p

/-! ## Constructors -/

instance classNewFrom (args : List Ref) : Adds (Vm.classNewFrom args) := by
  unfold Vm.classNewFrom
  split
  · refine after fun name => after fun super => after fun p => ?_
    cases p with
    | int n =>
      dsimp only
      split <;> infer_instance
    | _ => infer_instance
  · infer_instance

instance defineFrom (A : Prop) (args : List Ref) :
    Acts (Payload.Changes A) (Vm.defineFrom args) := by
  unfold Vm.defineFrom
  split <;> infer_instance

/-! ## Requests and native functions -/

instance requestSend (target value : Ref) : Adds (Vm.requestSend target value) := by
  unfold Vm.requestSend
  infer_instance

instance arrayPush (A : Prop) (array item : Ref) :
    Acts (Payload.Changes A) (Vm.arrayPush array item) := by
  unfold Vm.arrayPush
  refine inspecting fun p vm hf hp => ?_
  cases p with
  | array items =>
    exact .update hf hp (.push items item) (.setItems _) fun _ _ _ => Payload.binds_setItems
  | _ => exact works vm hf

instance arrayPop (A : Prop) (array : Ref) : Acts (Payload.Changes A) (Vm.arrayPop array) := by
  unfold Vm.arrayPop
  refine inspecting fun p vm hf hp => ?_
  cases p with
  | array items =>
    have hpop : vm.Works (Payload.Changes A)
        { vm with heap := vm.heap.update array (Payload.setItems items.pop) } :=
      .update hf hp (.pop items) (.setItems _) fun _ _ _ => Payload.binds_setItems
    refine .bind hpop fun _ vm₁ hrun => ?_
    cases hrun
    cases items.back? <;> exact hpop
  | _ => exact works vm hf

instance setSlot (A : Prop) (obj : Ref) (i : Nat) (value : Ref) :
    Acts (Payload.Becomes A) (Vm.setSlot obj i value) := by
  unfold Vm.setSlot
  refine after fun p => ?_
  cases p with
  | object slots =>
    dsimp only
    split <;> infer_instance
  | _ => infer_instance

/-- An action that replaces one failure of another by nil. -/
instance hashGet (hash key : Ref) : Adds (Vm.hashGet hash key) where
  works vm hf := by
    have hitem := (getItem hash key).works vm hf
    unfold Vm.hashGet
    split
    · rename_i h
      rw [h] at hitem
      exact hitem
    · exact hitem

instance printing (line : String) :
    Adds (modify fun vm => { vm with output := vm.output ++ line ++ "\n" } : Action Unit) :=
  changingNames (fun _ => rfl) (fun _ => rfl) fun _ => rfl

instance constructObject (cls : Ref) (args : List Ref) : Adds (Vm.constructObject cls args) := by
  unfold Vm.constructObject
  refine after fun c => ?_
  dsimp only
  split
  · infer_instance
  · refine after fun nothing => after fun obj => after fun found => ?_
    cases found with
    | some init => infer_instance
    | none =>
      dsimp only
      split <;> infer_instance

instance runInit (f : InitFn) (cls : Ref) (args : List Ref) : Adds (Vm.runInit f cls args) := by
  unfold Vm.runInit
  split <;> first
    | infer_instance
    | (refine after fun p => ?_
       cases p <;> infer_instance)

instance construct (cls : Ref) (args : List Ref) : Adds (Vm.construct cls args) := by
  unfold Vm.construct; infer_instance

/-- Of the native functions, one collects and one writes the slots of an object. -/
theorem runNative (A : Prop) {f : Native} (hf : f ≠ .collect) (hslot : f ≠ .slotSet)
    (args : List Ref) : Acts (Payload.Changes A) (Vm.runNative f args) := by
  unfold Vm.runNative
  split
  -- by their places: a collection, and the slots of an object
  case h_8 => exact absurd rfl hf
  case h_32 =>
    refine after fun p => ?_
    cases p with
    | int n =>
      refine after fun found => ?_
      cases found <;> infer_instance
    | _ => infer_instance
  case h_33 => exact absurd rfl hslot
  all_goals infer_instance

theorem runSlotSet (A : Prop) (args : List Ref) :
    Acts (Payload.Becomes A) (Vm.runNative .slotSet args) := by
  unfold Vm.runNative
  split
  case h_33 =>
    refine after fun p => ?_
    cases p with
    | int n =>
      refine @bindAdds _ _ _ _ _ _ _ fun done => ?_
      split <;> infer_instance
    | _ => infer_instance
  all_goals first | contradiction | infer_instance

/-! ## Instructions -/

instance goto (addr : Nat) : Adds (Vm.goto addr) := by
  refine changing (fun _ => rfl) (fun vm f' hf' => ?_) fun _ => rfl
  obtain ⟨j, hj, rfl⟩ := Array.mem_iff_getElem.mp hf'
  have hj' : j < vm.frames.size := by simpa using hj
  refine ⟨vm.frames[j], Array.getElem_mem hj', ?_⟩
  rw [Array.getElem_modify]
  split <;> rfl

instance push (r : Ref) : Adds (Vm.push r) :=
  changingNames (fun _ => rfl) (fun _ => rfl) fun _ => rfl

instance shrinking (height : Nat) :
    Adds (modify fun vm => { vm with stack := vm.stack.shrink height } : Action Unit) :=
  changingNames (fun _ => rfl) (fun _ => rfl) fun _ => rfl

instance drop (n : Nat) : Adds (Vm.drop n) := by
  unfold Vm.drop; infer_instance

instance pop : Adds Vm.pop := by
  unfold Vm.pop; infer_instance

instance replace (n : Nat) (r : Ref) : Adds (Vm.replace n r) := by
  unfold Vm.replace; infer_instance

theorem fillHash_yields {v₀ v : Vm} {hash : Ref} (items : List Ref) (hw : v₀.Works Eq v)
    (hnew : v₀.heap.contains hash = false) (hthere : v.heap.contains hash = true) :
    v₀.Yields v (Vm.fillHash hash items) fun _ _ => True := by
  induction items using Vm.fillHash.induct generalizing v with
  | case1 k x rest ih =>
    unfold Vm.fillHash
    exact (hashSet_works hw hnew hthere k x).bind fun _ v₁ hw₁ hthere => ih hw₁ hthere
  | case2 items h =>
    unfold Vm.fillHash
    split
    · exact absurd rfl (h _ _ _)
    · exact .return_ hw trivial

instance makeHash (items : List Ref) (after : Ref → Action α) [∀ hash, Adds (after hash)] :
    Adds (do
      let hash ← Vm.newHash
      Vm.fillHash hash items
      after hash) :=
  filling fun hw hnew hthere => fillHash_yields items hw hnew hthere

instance executeArith (op : Arith) : Adds (Vm.executeArith op) := by
  unfold Vm.executeArith; infer_instance

instance fetch : Adds Vm.fetch := by
  unfold Vm.fetch
  refine after fun f => ?_
  split <;> infer_instance

instance leaving (base : Nat) :
    Adds (modify fun vm => { vm with frames := vm.frames.pop, stack := vm.stack.shrink base } :
      Action Unit) :=
  changing (fun _ => rfl) (fun vm f' hf' => by
    refine ⟨f', ?_, rfl⟩
    rw [← Array.mem_toList_iff] at hf' ⊢
    rw [Array.toList_pop] at hf'
    exact List.mem_of_mem_dropLast hf') fun _ => rfl

instance leaveFrame : Adds Vm.leaveFrame := by
  unfold Vm.leaveFrame; infer_instance

instance ending : Adds (modify fun vm => { vm with loops := vm.loops - 1 } : Action Unit) :=
  changingNames (fun _ => rfl) (fun _ => rfl) fun _ => rfl

instance returnFrom (floor : Nat) (v : Ref) : Adds (Vm.returnFrom floor v) := by
  unfold Vm.returnFrom
  refine after fun _ => after fun vm => ?_
  split <;> infer_instance

/-! ## Failures and answers -/

instance traceUnwinding (v : Ref) (floor : Nat) : Adds (Machine.traceUnwinding v floor) := by
  unfold Machine.traceUnwinding
  refine after fun vm => ?_
  split <;> infer_instance

instance cutting (floor base : Nat) :
    Adds (modify fun vm =>
      { vm with
        frames := vm.frames.shrink floor
        stack := vm.stack.shrink base
        loops := vm.loops - 1 } : Action Unit) :=
  changing (fun _ => rfl) (fun vm f' hf' => by
    refine ⟨f', ?_, rfl⟩
    rw [← Array.mem_toList_iff] at hf' ⊢
    simp only [Array.shrink_eq_take, Array.take_eq_extract, Array.toList_extract,
      List.extract_eq_take_drop] at hf'
    exact List.mem_of_mem_take hf') fun _ => rfl

instance unwind (e : Error) (floor base : Nat) : Adds (Machine.unwind e floor base) := by
  unfold Machine.unwind; infer_instance

instance answerValue (a : Machine.Answer) : Adds (Machine.answerValue a) := by
  cases a <;> unfold Machine.answerValue <;> infer_instance

end Acts

/-! ## Methods and frames without regard to names -/

namespace Tame

instance new (k : Builtin) (p : Payload) : Tame (Vm.new k p) :=
  reading (f := fun vm => Vm.alloc (k.ref vm.heap.id) p) fun _ => inferInstance

instance newMethod (name : String) (body : Body) (receiver : Option Ref) :
    Tame (Vm.newMethod name body receiver) :=
  new _ _

instance newBytecodeMethod (unit : CodeUnit) (module : Option Ref) :
    Tame (Vm.newBytecodeMethod unit module) := by
  unfold Vm.newBytecodeMethod; infer_instance

instance makeLocals (bindings : NameMap Ref) (names : List String) (locals : NameMap Ref) :
    Tame (Vm.makeLocals bindings names locals) := by
  induction names generalizing locals with
  | nil => exact return_ locals
  | cons name rest ih =>
    unfold Vm.makeLocals
    dsimp only
    split <;> infer_instance

instance allocFrame (method : Ref) (unit : CodeUnit) (bindings : NameMap Ref) :
    Tame (Vm.allocFrame method unit bindings) := by
  unfold Vm.allocFrame; infer_instance

end Tame
end ObjectMachine
