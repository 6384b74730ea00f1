import ObjectMachine.Proofs.Classes.Endings

/-!
# ObjectMachine.Proofs.Classes.Attributes

When attribute access and construction end the system.

The method table of a class may hold any value: what is defined as a method is not looked at. An
access that comes to such an entry binds it, and what is no method cannot be bound. Nothing else
ends the system.

* `Heap.Unbindable` — the first entry of a name along a chain is no method.
* `Obj.AsksChain` — the names that are looked up along the chain of an object.
* `Obj.Refuses` — the failures of attribute access.
* `Vm.getAttr_aborts` — attribute access.
* `Vm.construct_aborts` — construction.
* `Vm.Neat.lasts` — the names of modules stand for variables.
* `Session.unbindable_aborts` — so it is in every run.
-/

namespace ObjectMachine

open ObjectMachine.Action

/-- The entry that the chain of a class has for a name is no method; the failure to bind it. -/
def Heap.Unbindable (h : Heap) (k : Ref) (name : String) (f : Fatal) : Prop :=
  ∃ m p, h.lookupMethod k name = .ok (some m) ∧ h.payload m = .ok p ∧ (∀ b, p ≠ .method b) ∧
    f = .bindsNoMethod m p.kind

/-- The entry that a module has for a name is no variable; the failure to read it. -/
def Module.Unreadable (m : Module) (h : Heap) (name : String) (f : Fatal) : Prop :=
  ∃ var p, m.locals.find? name = some var ∧ h.payload var = .ok p ∧ (∀ v, p ≠ .var v) ∧
    f = .wrongKind var p.kind "a var"

/-- Whether an attribute of an object is looked up along the chain of its class. A class looks among
its own methods first, a module has its members only, and errors have some fields. -/
def Obj.AsksChain (o : Obj) (h : Heap) (r : Ref) (name : String) : Prop :=
  match o.payload with
  | .cls _ => name ≠ "name" ∧ name ≠ "super" ∧ h.lookupMethod r name = .ok none
  | .module _ => False
  | .error _ => name ≠ "message" ∧ name ≠ "cause" ∧ name ≠ "backtrace"
  | _ => True

/-- The ways in which access to an attribute of an object ends the system. -/
def Obj.Refuses (o : Obj) (h : Heap) (r : Ref) (name : String) (stop : Stop) : Prop :=
  (o.AsksChain h r name ∧ ∃ e, h.Unbindable o.cls name e ∧ stop = .fatal e) ∨
    ∃ m e, o.payload = .module m ∧ m.Unreadable h name e ∧ stop = .fatal e

/-- The function for attributes of objects of each kind. -/
def Payload.getAttrFn : Payload → GetAttrFn
  | .cls _ => .cls
  | .module _ => .module
  | .error _ => .error
  | _ => .object

theorem Payload.inherited_getAttr (p : Payload) :
    Builtin.inherited Slots.getAttr (some p.family) = some p.getAttrFn := by
  cases p <;> rfl

namespace Vm

variable {vm : Vm}

/-! ## Binding -/

/-- Binding ends the system for what is no method. -/
theorem bind_aborts {m : Ref} {p : Payload} (hp : vm.heap.payload m = .ok p) (obj : Ref) :
    Aborts (bind m obj vm) fun stop =>
      (∀ b, p ≠ .method b) ∧ stop = .fatal (.bindsNoMethod m p.kind) := by
  unfold bind
  refine .inspecting hp ?_
  cases p with
  | method b => exact .of_recovers (Sure.recovers (new .method _) vm) fun s h => h.1 b rfl
  | _ => exact .of_error rfl fun s => ⟨fun h => h.2, fun h => ⟨by rintro _ ⟨⟩, h⟩⟩

/-- A method is looked up along the chain of a class, and then it is bound. -/
theorem lookup_bind_aborts {α : Type} {k : Ref} (obj : Ref) {name : String} {found : Option Ref}
    (hfound : vm.heap.lookupMethod k name = .ok found)
    (hlive : ∀ m, found = some m → vm.heap.contains m = true) {f : Option Ref → Action α}
    {g : Ref → Action α} (hnone : Recovers (f none vm))
    (hsome : ∀ m, f (some m) = bind m obj >>= g) (hg : ∀ r vm', Recovers (g r vm')) :
    Aborts ((Action.ofHeap (fun h => h.lookupMethod k name) >>= f) vm) fun stop =>
      ∃ e, vm.heap.Unbindable k name e ∧ stop = .fatal e := by
  refine .asking hfound ?_
  cases found with
  | none =>
    refine .of_recovers hnone ?_
    rintro s ⟨e, ⟨m, p, hm, -⟩, -⟩
    rw [hfound] at hm
    cases hm
  | some m =>
    obtain ⟨p, hp⟩ := Heap.Sound.payload (hlive m rfl)
    rw [hsome]
    refine (((bind_aborts hp obj).congr fun s => ?_).bind fun r vm' _ => hg r vm')
    constructor
    · rintro ⟨hno, rfl⟩
      exact ⟨_, ⟨m, p, hfound, hp, hno, rfl⟩, rfl⟩
    · rintro ⟨e, ⟨m', p', hm', hp', hno, rfl⟩, rfl⟩
      obtain rfl : m = m' := Option.some.inj (Except.ok.inj (hfound.symm.trans hm'))
      obtain rfl : p = p' := Except.ok.inj (hp.symm.trans hp')
      exact ⟨hno, rfl⟩

/-! ## Attributes -/

theorem getMethod_aborts (hlive : vm.Live) {obj : Ref} {o : Obj} (ho : vm.heap.get obj = .ok o)
    (name : String) :
    Aborts (getMethod obj name vm) fun stop =>
      ∃ e, vm.heap.Unbindable o.cls name e ∧ stop = .fatal e := by
  have hs := hlive.heap
  obtain ⟨c, hc⟩ := (hs.traces obj o ho).cls
  obtain ⟨found, hfound⟩ := hs.lookupMethod hc name
  refine .asking (Heap.classOf_eq ho)
    (lookup_bind_aborts obj hfound (fun m hm => ?_) (g := pure) ?_ (fun m => ?_) ?_)
  · exact hs.lookupMethod_live hc (hm ▸ hfound)
  · exact .asking hc (.raise _)
  · exact (bind_pure _).symm
  · exact fun r vm' => .return_ r

/-- The members of a module are read from their variables. -/
theorem getMember_aborts (hlive : vm.Live) {module : Ref} {m : Module}
    (hm : vm.heap.payload module = .ok (.module m)) (name : String) :
    Aborts (getMember module name vm) fun stop =>
      ∃ e, m.Unreadable vm.heap name e ∧ stop = .fatal e := by
  refine .inspecting hm ?_
  dsimp only
  cases hfound : m.locals.find? name with
  | none =>
    refine .of_recovers (.raise _) ?_
    rintro s ⟨e, ⟨var, p, hvar, -⟩, -⟩
    rw [hfound] at hvar
    cases hvar
  | some var =>
    have hvar : vm.heap.contains var = true :=
      hlive.heap.closed.refs_live hm (NameMap.mem_values hfound)
    obtain ⟨p, hp⟩ := Heap.Sound.payload hvar
    dsimp only
    unfold readVar
    rw [bind_assoc]
    refine .inspecting hp ?_
    cases p with
    | var value =>
      refine .of_recovers ?_ ?_
      · cases value with
        | some v => exact .return_ v
        | none => exact .raise _
      · rintro s ⟨e, ⟨var', p, hvar, hp', hno, -⟩, -⟩
        obtain rfl : var = var' := Option.some.inj (hfound.symm.trans hvar)
        exact hno value (Except.ok.inj (hp'.symm.trans hp))
    | _ =>
      refine .of_error (bind_error rfl) fun s => ⟨?_, fun hs => ?_⟩
      · rintro ⟨e, ⟨var', p, hvar, hp', -, rfl⟩, rfl⟩
        obtain rfl : var = var' := Option.some.inj (hfound.symm.trans hvar)
        rw [hp] at hp'
        cases hp'
        rfl
      · exact ⟨_, ⟨var, _, hfound, hp, by rintro _ ⟨⟩, rfl⟩, hs⟩

/-- A class looks among its own methods, unbound, before it asks the chain of its class. -/
theorem getClassAttr_aborts (hlive : vm.Live) {cls : Ref} {o : Obj} {c : Class}
    (ho : vm.heap.get cls = .ok o) (hc : vm.heap.cls cls = .ok c) (name : String) :
    Aborts (getClassAttr cls name vm) fun stop =>
      (name ≠ "name" ∧ name ≠ "super" ∧ vm.heap.lookupMethod cls name = .ok none) ∧
        ∃ e, vm.heap.Unbindable o.cls name e ∧ stop = .fatal e := by
  unfold getClassAttr
  by_cases hname : name = "name"
  · rw [if_pos hname]
    exact .of_recovers (.asking hc (Sure.recovers (newStr c.name) vm)) fun s h => h.1.1 hname
  rw [if_neg hname]
  by_cases hsuper : name = "super"
  · rw [if_pos hsuper]
    refine .of_recovers (.asking hc ?_) fun s h => h.1.2.1 hsuper
    cases c.super with
    | some s => exact .return_ s
    | none => exact Sure.recovers nil vm
  rw [if_neg hsuper]
  obtain ⟨found, hfound⟩ := hlive.heap.lookupMethod hc name
  refine .asking hfound ?_
  cases found with
  | some m =>
    refine .of_recovers (.return_ m) ?_
    rintro s ⟨⟨-, -, hnone⟩, -⟩
    rw [hfound] at hnone
    cases hnone
  | none =>
    refine (getMethod_aborts hlive ho name).congr fun s => ?_
    exact ⟨fun h => ⟨⟨hname, hsuper, hfound⟩, h⟩, fun h => h.2⟩

/-- An error has some fields of its own. -/
theorem getErrorAttr_aborts (hlive : vm.Live) {err : Ref} {k : Ref} {e : ErrorInfo}
    (ho : vm.heap.get err = .ok ⟨k, .error e⟩) (name : String) :
    Aborts (getErrorAttr err name vm) fun stop =>
      (name ≠ "message" ∧ name ≠ "cause" ∧ name ≠ "backtrace") ∧
        ∃ e, vm.heap.Unbindable k name e ∧ stop = .fatal e := by
  refine .inspecting (Heap.payload_eq_ok_iff.mpr ⟨k, ho⟩) ?_
  dsimp only
  by_cases hmessage : name = "message"
  · rw [if_pos hmessage]
    exact .of_recovers (Sure.recovers _ vm) fun s h => h.1.1 hmessage
  rw [if_neg hmessage]
  by_cases hcause : name = "cause"
  · rw [if_pos hcause]
    refine .of_recovers ?_ fun s h => h.1.2.1 hcause
    cases e.cause with
    | some c => exact .return_ c
    | none => exact Sure.recovers nil vm
  rw [if_neg hcause]
  by_cases hbacktrace : name = "backtrace"
  · rw [if_pos hbacktrace]
    refine .of_recovers ?_ fun s h => h.1.2.2 hbacktrace
    exact Sure.recovers (do newArray (← newStrs e.backtrace)) vm
  rw [if_neg hbacktrace]
  refine (getMethod_aborts hlive ho name).congr fun s => ?_
  exact ⟨fun h => ⟨⟨hmessage, hcause, hbacktrace⟩, h⟩, fun h => h.2⟩

/-- Attribute access ends the system exactly if it comes to an entry that is no method, or no
variable. -/
theorem getAttr_aborts (hlive : vm.Live) (hclassed : vm.heap.Classed) {obj : Ref} {o : Obj}
    (ho : vm.heap.get obj = .ok o) (name : String) :
    Aborts (getAttr obj name vm) (o.Refuses vm.heap obj name) := by
  have hfamily := hclassed.objects obj o ho
  have hfn := hfamily.requireSlot hclassed (fun _ => rfl) .getAttr o.payload.inherited_getAttr
  refine .after (require_ok ho hfn) ?_
  obtain ⟨k, p⟩ := o
  have hchain : ∀ {s : Stop}, (∀ m, p ≠ .module m) →
      (((⟨k, p⟩ : Obj).AsksChain vm.heap obj name ∧
        ∃ e, vm.heap.Unbindable k name e ∧ s = .fatal e) ↔
          (⟨k, p⟩ : Obj).Refuses vm.heap obj name s) := fun hno =>
    ⟨.inl, fun h => h.elim id fun ⟨m, _, hm, _⟩ => (hno m hm).elim⟩
  cases p with
  | cls c =>
    exact (getClassAttr_aborts hlive ho (Heap.cls_eq_ok.mpr ⟨k, ho⟩) name).congr fun s =>
      hchain (by rintro _ ⟨⟩)
  | module m =>
    refine (getMember_aborts hlive (Heap.payload_eq_ok_iff.mpr ⟨k, ho⟩) name).congr fun s => ?_
    constructor
    · rintro ⟨e, he, rfl⟩
      exact .inr ⟨m, e, rfl, he, rfl⟩
    · rintro (⟨⟨⟩, -⟩ | ⟨_, e, ⟨⟩, he, rfl⟩)
      exact ⟨e, he, rfl⟩
  | error e =>
    exact (getErrorAttr_aborts hlive ho name).congr fun s => hchain (by rintro _ ⟨⟩)
  | _ =>
    refine (getMethod_aborts hlive ho name).congr fun s => Iff.trans ?_ (hchain (by rintro _ ⟨⟩))
    exact ⟨fun h => ⟨trivial, h⟩, fun h => h.2⟩

/-- Where the names of modules stand for variables, only the entries of method tables matter. -/
theorem Neat.refuses (hneat : vm.Neat) {obj : Ref} {o : Obj} (ho : vm.heap.get obj = .ok o)
    {name : String} {stop : Stop} :
    o.Refuses vm.heap obj name stop ↔
      o.AsksChain vm.heap obj name ∧ ∃ e, vm.heap.Unbindable o.cls name e ∧ stop = .fatal e := by
  refine ⟨?_, .inl⟩
  rintro (h | ⟨m, e, hm, ⟨var, p, hvar, hp, hno, -⟩, -⟩)
  · exact h
  · obtain ⟨value, hvalue⟩ := hneat.vars name var
      ⟨obj, .module m, Heap.payload_eq_ok_iff.mpr ⟨o.cls, hm ▸ ho⟩, hvar⟩
    exact (hno value (Except.ok.inj (hp.symm.trans hvalue))).elim

/-! ## Construction -/

/-- A new object makes no difference to what can be bound. -/
theorem unbindable_place {h : Heap} (hs : h.Sound) {k : Ref} {c : Class} (hc : h.cls k = .ok c)
    (o : Obj) (name : String) (e : Fatal) :
    (h.place o).2.Unbindable k name e ↔ h.Unbindable k name e := by
  have hpayload : ∀ {m p}, h.payload m = .ok p → (h.place o).2.payload m = .ok p := fun hp =>
    Heap.payload_place_of_payload hs.freeList o hp
  unfold Heap.Unbindable
  rw [hs.lookupMethod_place hc]
  constructor
  · rintro ⟨m, p, hm, hp, hno, rfl⟩
    obtain ⟨q, hq⟩ := Heap.Sound.payload (hs.lookupMethod_live hc hm)
    obtain rfl : q = p := Except.ok.inj ((hpayload hq).symm.trans hp)
    exact ⟨m, q, hm, hq, hno, rfl⟩
  · rintro ⟨m, p, hm, hp, hno, rfl⟩
    exact ⟨m, p, hm, hpayload hp, hno, rfl⟩

/-- The constructor of plain instances: the slots must have room, and `init` must be a method. -/
theorem constructObject_aborts (hlive : vm.Live) {cls : Ref} {c : Class}
    (hc : vm.heap.cls cls = .ok c) (args : List Ref) :
    Aborts (constructObject cls args vm) fun stop =>
      if c.size * slotBytes > maxBytes then stop = .crashed
      else ∃ e, vm.heap.Unbindable cls "init" e ∧ stop = .fatal e := by
  have hs := hlive.heap
  refine .asking hc ?_
  by_cases hsize : c.size * slotBytes > maxBytes
  · simp only [if_pos hsize]
    exact .of_error rfl fun s => Iff.rfl
  simp only [if_neg hsize]
  have hnil : nil vm = .ok (nilRef vm.heap.id) vm := rfl
  refine .after hnil (.after (alloc_ok (Heap.cls_contains hc) _) ?_)
  obtain ⟨found, hfound⟩ := hs.lookupMethod hc "init"
  have hplace := hs.lookupMethod_place hc
    ⟨cls, .object (Array.replicate c.size (nilRef vm.heap.id))⟩ "init"
  refine (lookup_bind_aborts _ (hplace.trans hfound) (fun m hm => ?_) ?_ (fun m => rfl)
    fun r vm' => .return_ _).congr fun s => ?_
  · exact Heap.contains_place hs.freeList _ (hs.lookupMethod_live hc (hm ▸ hfound))
  · dsimp only
    split
    · exact .return_ _
    · exact .raise _
  · simp only [unbindable_place hs hc]

theorem strOf_recovers (hlive : vm.Live) (hclassed : vm.heap.Classed) {r : Ref}
    (hr : vm.heap.contains r = true) : Recovers (strOf r vm) :=
  (Aborts.of_answered (hclassed.displayWithin hlive.heap.closed _ hr)).bind fun s vm' _ =>
    Sure.recovers (newStr s) vm'

/-- The other constructors. -/
theorem runInit_recovers (hlive : vm.Live) (hclassed : vm.heap.Classed) {f : InitFn}
    (hf : f ≠ .object) {cls : Ref} {c : Class} (hc : vm.heap.cls cls = .ok c) {args : List Ref}
    (hargs : ∀ r ∈ args, vm.heap.contains r = true) : Recovers (runInit f cls args vm) := by
  have hmake : ∀ {α : Type} {a : Action α} [Reads a] (p : α → Payload), Recovers (a vm) →
      Recovers ((do
        let x ← a
        return Reply.value (← alloc cls (p x))) vm) := by
    intro α a _ p ha
    refine ha.bind fun x vm' hrun => ?_
    obtain rfl := Reads.of_ok hrun
    exact .after (alloc_ok (Heap.cls_contains hc) _) (.return_ _)
  have hone : ∀ {v}, args = [v] → vm.heap.contains v = true := fun h => hargs _ (by simp [h])
  unfold runInit
  split
  case h_1 => exact absurd rfl hf
  case h_2 => exact (classNewFrom_recovers hlive hargs).bind fun r vm' _ => .return_ _
  case h_3 => exact Sure.recovers (do return Reply.value (← nil)) vm
  case h_5 => exact Sure.recovers (do return Reply.value (← bool false)) vm
  case h_6 =>
    refine (Aborts.of_answered (hclassed.truthy (hone rfl))).bind fun b vm' _ => ?_
    exact Sure.recovers (do return Reply.value (← bool b)) vm'
  case h_8 => exact .after (alloc_ok (Heap.cls_contains hc) _) (.return_ _)
  case h_9 => exact hmake Payload.int (toInt_recovers hlive (hone rfl))
  case h_11 => exact .after (alloc_ok (Heap.cls_contains hc) _) (.return_ _)
  case h_12 => exact hmake Payload.float (toFloat_recovers hlive (hone rfl))
  case h_14 => exact Sure.recovers (do return Reply.value (← newStr "")) vm
  case h_15 v =>
    obtain ⟨p, hp⟩ := Heap.Sound.payload (hone rfl)
    refine .inspecting hp ?_
    cases p with
    | str b => exact .return_ _
    | _ => exact (strOf_recovers hlive hclassed (hone rfl)).bind fun r vm' _ => .return_ _
  case h_17 => exact .after (alloc_ok (Heap.cls_contains hc) _) (.return_ _)
  case h_18 => exact .after (alloc_ok (Heap.cls_contains hc) _) (.return_ _)
  case h_20 =>
    refine (textOf_recovers hlive (hone rfl)).bind fun text vm' _ => ?_
    exact Sure.recovers (do return Reply.value (← newError text none)) vm'
  case h_21 message cause =>
    refine (textOf_recovers hlive (hargs message (by simp))).bind fun text vm' _ => ?_
    exact Sure.recovers (do return Reply.value (← newError text (some cause))) vm'
  case h_23 => exact .asking hc (.raise _)
  case h_24 => exact Sure.recovers (do return Reply.value (← newArray args)) vm
  all_goals exact .raise _

/-- Construction of a class that finds a constructor. -/
theorem construct_aborts (hlive : vm.Live) (hclassed : vm.heap.Classed) {cls : Ref} {c : Class}
    (hc : vm.heap.cls cls = .ok c) {f : InitFn}
    (hf : vm.heap.requireSlot .init Slots.init cls = .ok f) {args : List Ref}
    (hargs : ∀ r ∈ args, vm.heap.contains r = true) :
    Aborts (construct cls args vm) fun stop =>
      f = .object ∧ if c.size * slotBytes > maxBytes then stop = .crashed
        else ∃ e, vm.heap.Unbindable cls "init" e ∧ stop = .fatal e := by
  rw [construct_run hf]
  by_cases hobject : f = .object
  · subst hobject
    exact (constructObject_aborts hlive hc args).congr fun s => ⟨fun h => ⟨rfl, h⟩, fun h => h.2⟩
  · exact .of_recovers (runInit_recovers hlive hclassed hobject hc hargs) fun s h => hobject h.1

end Vm

/-! ## Runs -/

/-- A method that is made by hand gets a module, if anything, and a module gets variables. -/
def Vm.Scopes (v : Vm) : Operation → List Ref → Prop
  | .method _, [r] => v.heap.IsModule r
  | .addLocal _, [_, x] => v.heap.IsVar x
  | _, _ => True

theorem Vm.Neat.lasts : Vm.Lasts (fun _ _ => False) Vm.Scopes Vm.Neat where
  swept := swept
  proceeds h hp := (hp.names h).neat
  place _ _ _ hp := hp.elim
  addLocal h ha := h.addLocal _ _ ha
  roots h := h.roots _ _
  module ha := ha

namespace Session

/-- In every run in which the embedding program makes no object by hand: attribute access ends the
system exactly if it comes to a method table's entry that is no method, and every class below
`Object` finds a constructor, which ends it exactly if it is that of plain instances and the slots
have no room or the entry for `init` is no method. -/
theorem unbindable_aborts {registry : Registry} {config : Config} {heap : Nat} {task : TaskId}
    {s : Session}
    (hs : (boot registry config heap task).ReachesBy (fun _ _ => False) Vm.Scopes s) :
    (∀ obj o name, s.vm.heap.get obj = .ok o →
      Aborts (Vm.getAttr obj name s.vm) fun stop =>
        o.AsksChain s.vm.heap obj name ∧
          ∃ e, s.vm.heap.Unbindable o.cls name e ∧ stop = .fatal e) ∧
      ∀ cls c args, s.vm.heap.cls cls = .ok c →
        s.vm.heap.isSubclass cls (Builtin.object.ref s.vm.heap.id) = .ok true →
        (∀ r ∈ args, s.vm.heap.contains r = true) →
        ∃ f, s.vm.heap.requireSlot .init Slots.init cls = .ok f ∧
          Aborts (Vm.construct cls args s.vm) fun stop =>
            f = .object ∧ if c.size * Vm.slotBytes > maxBytes then stop = .crashed
              else ∃ e, s.vm.heap.Unbindable cls "init" e ∧ stop = .fatal e := by
  obtain ⟨horderly, hclassed⟩ := classed hs
  have hlive := horderly.live.vm_live
  have hneat : s.vm.Neat :=
    Vm.Neat.lasts.reaches (s := boot registry config heap task)
      (Vm.Named.boot registry config heap task).toNeat (boot_live registry config heap task) hs
  refine ⟨fun obj o name ho => ?_, ?_⟩
  · exact (Vm.getAttr_aborts hlive hclassed ho name).congr fun stop => hneat.refuses ho
  intro cls c args hc hsub hargs
  obtain ⟨family, hfamily⟩ := hclassed.classes cls c hc
  obtain ⟨b, rfl⟩ := hfamily.of_isSubclass hclassed hsub
  obtain ⟨f, hf⟩ : ∃ f, Builtin.inherited Slots.init (some b) = some f := by
    cases b <;> exact ⟨_, rfl⟩
  have hfound := hfamily.requireSlot hclassed (fun _ => rfl) .init hf
  exact ⟨f, hfound, Vm.construct_aborts hlive hclassed hc hfound hargs⟩

/-- The native function `define` puts an integer in the method table of a class, and an instance is
made. -/
def numberAsMethod : List Deed :=
  [.operate (.classNew "A" 0) [Builtin.object.ref 0], .operate (.bytes "x".toUTF8) [],
    .operate (.int 5) [], .call (.call ⟨0, 33, 0⟩ [⟨0, 43, 0⟩, ⟨0, 44, 0⟩, ⟨0, 45, 0⟩]), .step,
    .step, .call (.instantiate ⟨0, 43, 0⟩ []), .step, .step]

/-- The attribute of the instance ends the system. -/
theorem unbindable_aborts_number :
    ∃ s o vm, (boot {} {} 0 ⟨0, 0⟩).ReachesBy (fun _ _ => False) Vm.Scopes s ∧
      s.vm.heap.get ⟨0, 46, 0⟩ = .ok o ∧ o.cls = ⟨0, 43, 0⟩ ∧
      Vm.getAttr ⟨0, 46, 0⟩ "x" s.vm = .error (.fatal (.bindsNoMethod ⟨0, 45, 0⟩ "int")) vm := by
  have hrun : (follow? numberAsMethod (boot {} {} 0 ⟨0, 0⟩)).any (fun s =>
      okAnd (s.vm.heap.get ⟨0, 46, 0⟩)
        (fun o => o.cls == ⟨0, 43, 0⟩ && o.payload.kind == "object") &&
      okAnd (s.vm.heap.lookupMethod ⟨0, 43, 0⟩ "x") (· == some ⟨0, 45, 0⟩) &&
      okAnd (s.vm.heap.payload ⟨0, 45, 0⟩) (·.kind == "int")) = true := by decide +kernel
  obtain ⟨s, hs, hrun⟩ := (Option.any_eq_true _ _).mp hrun
  simp only [Bool.and_eq_true, okAnd_eq_true, beq_iff_eq] at hrun
  obtain ⟨⟨⟨o, ho, hcls, hkind⟩, found, hfound, rfl⟩, p, hp, hint⟩ := hrun
  have haccepts : ∀ c operands, .operate c operands ∈ numberAsMethod →
      ∀ vm : Vm, vm.Scopes c operands := by
    intro c operands hmem vm
    simp only [numberAsMethod, List.mem_cons, Deed.operate.injEq, reduceCtorEq, List.not_mem_nil,
      or_false] at hmem
    rcases hmem with ⟨rfl, rfl⟩ | ⟨rfl, rfl⟩ | ⟨rfl, rfl⟩ <;> trivial
  have hreach : (boot {} {} 0 ⟨0, 0⟩).ReachesBy (fun _ _ => False) Vm.Scopes s :=
    follow?_reaches haccepts hs
  have hplain : o.AsksChain s.vm.heap ⟨0, 46, 0⟩ "x" := by
    obtain ⟨k, q⟩ := o
    cases q with
    | object slots => trivial
    | _ => simp [Payload.kind] at hkind
  have hentry : s.vm.heap.Unbindable o.cls "x" (.bindsNoMethod ⟨0, 45, 0⟩ p.kind) := by
    refine ⟨⟨0, 45, 0⟩, p, hcls ▸ hfound, hp, ?_, rfl⟩
    rintro b rfl
    simp [Payload.kind] at hint
  obtain ⟨vm, hend⟩ := ((unbindable_aborts hreach).1 _ o "x" ho).ends _ ⟨hplain, _, hentry, rfl⟩
  exact ⟨s, o, vm, hreach, ho, hcls, hint ▸ hend⟩

end Session
end ObjectMachine
