import ObjectMachine.Proofs.Scopes.OneName

/-!
# ObjectMachine.Proofs.Scopes.OneModule

There is one module of each name, and whatever looks names up there holds that module.

A module is made only where its name has no entry in the module table, and it is entered at once.
Entries are never replaced, and a collection keeps them. The embedding program could break this by
making a module by hand; it may make anything else that holds on to modules and variables only.

* `Vm.Housed` — the module table lists the modules that are there, and names are looked up in those.
* `Vm.Permits`, `Vm.Grants` — what the embedding program may make by hand.
* `Vm.Housed.lasts`, `Vm.Housed.lasts_entry` — every step keeps the table and each entry of it.
* `Vm.importModule_error` — only a name that is neither in the table nor registered cannot be
  imported, and then nothing happens.
* `Vm.importModule_entry`, `Vm.unpack_method` — modules are found again by their names.
* `Session.one_module_per_name` — so it is in every run.
-/

namespace ObjectMachine

open ObjectMachine.Action

/-- The module table lists the modules that are there, and names are looked up in those. -/
structure Vm.Housed (v : Vm) : Prop extends v.Neat where
  catalogued : v.Catalogued

/-- Contents that may be made by hand: no module, and if they bind names or look them up, then in
variables and modules that are there. -/
structure Vm.Permits (v : Vm) (p : Payload) : Prop where
  module : p.moduleName? = none
  vars : ∀ name x, p.Binds name x → v.heap.IsVar x
  scope : ∀ m r, p = .method m → m.body.module? = some r → v.heap.IsModule r

/-- A method gets a module, if anything, and a module gets a variable. -/
def Vm.Grants (v : Vm) : Operation → List Ref → Prop
  | .method _, [r] => v.heap.IsModule r
  | .addLocal _, [_, x] => v.heap.IsVar x
  | _, _ => True

/-! ## Steps keep the module table -/

namespace Vm

variable {v u v' : Vm} {name : String} {r : Ref}

theorem Catalogued.swept (h : v.Catalogued) (hs : v.Swept u) : u.Catalogued := by
  have hmodules : u.modules = v.modules := by rw [hs.state]
  have hlive := Vm.Live.swept hs
  intro name r
  constructor
  · intro hfound
    obtain ⟨p, hp, hname⟩ := (h name r).mp (hmodules ▸ hfound)
    exact ⟨p, hs.remains.payload hp (hlive.scope_live (.table hfound)), hname⟩
  · rintro ⟨p, hp, hname⟩
    rw [hmodules]
    exact (h name r).mpr ⟨p, hs.payload_back hp, hname⟩

/-- An entry stays while nothing is collected, for its module does. -/
theorem Proceeds.entry {R : Payload → Payload → Prop} [Gentle R] (h : v.Proceeds R v')
    (hv : v.Catalogued) (hr : v.modules.find? name = some r) : v'.modules.find? name = some r :=
  (h.modules hv name r).mpr (h.evolves.moduleNamed ((hv name r).mp hr))

namespace Housed

theorem swept (h : v.Housed) (hs : v.Swept u) : u.Housed :=
  ⟨h.toNeat.swept hs, h.catalogued.swept hs⟩

theorem proceeds {R : Payload → Payload → Prop} (h : v.Housed) (hp : v.Proceeds R v') :
    v'.Housed :=
  ⟨(hp.names h.toNeat).neat, hp.modules h.catalogued⟩

theorem place (h : v.Housed) (hf : v.heap.FreeList) (k : Ref) {p : Payload} (hp : v.Permits p) :
    Vm.Housed { v with heap := (v.heap.place ⟨k, p⟩).2 } :=
  ⟨h.toNeat.place hf k hp.vars hp.scope, h.catalogued.place hf k hp.module⟩

theorem addLocal (h : v.Housed) (m : Ref) (name : String) {x : Ref} (hx : v.heap.IsVar x) :
    Vm.Housed { v with heap := v.heap.update m (Payload.addLocal name x) } :=
  ⟨h.toNeat.addLocal m name hx, h.catalogued.update m (Payload.moduleName_addLocal name x)⟩

theorem lasts : Vm.Lasts Vm.Permits Vm.Grants Vm.Housed where
  swept := swept
  proceeds := proceeds
  place k h hf hp := h.place hf k hp
  addLocal h ha := h.addLocal _ _ ha
  roots h := ⟨h.toNeat.roots _ _, h.catalogued⟩
  module ha := ha

/-- An entry of the module table is there for good. -/
theorem lasts_entry (name : String) (r : Ref) :
    Vm.Lasts Vm.Permits Vm.Grants fun v => v.Housed ∧ v.modules.find? name = some r where
  swept h hs := ⟨h.1.swept hs, by rw [hs.state]; exact h.2⟩
  proceeds h hp := ⟨h.1.proceeds hp, hp.entry h.1.catalogued h.2⟩
  place k h hf hp := ⟨h.1.place hf k hp, h.2⟩
  addLocal h ha := ⟨h.1.addLocal _ _ ha, h.2⟩
  roots h := ⟨⟨h.1.toNeat.roots _ _, h.1.catalogued⟩, h.2⟩
  module ha := ha

/-- A new task has no modules. -/
theorem boot (registry : Registry) (config : Config) (heap : Nat) (task : TaskId) :
    (Vm.boot registry config heap task).Housed := by
  refine ⟨(Named.boot registry config heap task).toNeat,
    (Vm.boot_proceeds registry config heap task).modules fun name r => ⟨nofun, ?_⟩⟩
  rintro ⟨p, hp, hname⟩
  rcases Vm.bare_payload hp with ⟨c, rfl⟩ | rfl | ⟨b, rfl⟩ <;> cases hname

end Housed

end Vm

/-! ## Imports -/

/-- An action that succeeds in every state. -/
class Sure {α : Type} (a : Action α) : Prop where
  ok : ∀ v, ∃ x v', a v = .ok x v'

namespace Sure

variable {α β : Type}

theorem not_error {a : Action α} [ha : Sure a] {v v' : Vm} {e : Stop}
    (hrun : a v = .error e v') : False := by
  obtain ⟨x, v₁, hok⟩ := ha.ok v
  rw [hok] at hrun
  cases hrun

instance return_ (x : α) : Sure (pure x : Action α) :=
  ⟨fun v => ⟨x, v, rfl⟩⟩

instance modify_ (f : Vm → Vm) : Sure (modify f : Action Unit) :=
  ⟨fun v => ⟨(), f v, rfl⟩⟩

instance modifyHeap (f : Heap → Heap) : Sure (Action.modifyHeap f) :=
  modify_ _

instance bind (a : Action α) (f : α → Action β) [ha : Sure a] [hf : ∀ x, Sure (f x)] :
    Sure (a >>= f) where
  ok v := by
    obtain ⟨x, v₁, hrun⟩ := ha.ok v
    obtain ⟨y, v₂, hrun₂⟩ := (hf x).ok v₁
    exact ⟨y, v₂, (bind_ok hrun).trans hrun₂⟩

instance trace (on : Channels → Bool) (channel : String) (text : Vm → String) :
    Sure (Vm.trace on channel text) :=
  modify_ _

instance new (k : Builtin) (p : Payload) : Sure (Vm.new k p) :=
  ⟨fun v => ⟨_, _, Vm.new_eq v k p⟩⟩

instance newMethod (name : String) (body : Body) (receiver : Option Ref) :
    Sure (Vm.newMethod name body receiver) :=
  new _ _

instance newVar (value : Option Ref) : Sure (Vm.newVar value) :=
  new _ _

mutual

theorem loadCode : ∀ unit, Sure (Vm.loadCode unit)
  | ⟨name, code, consts, names, locals, freevars, arity⟩ => by
    have := loadConstants consts
    unfold Vm.loadCode
    infer_instance

theorem loadConstant : ∀ c, Sure (Vm.loadConstant c)
  | .nil => ⟨fun v => ⟨_, v, rfl⟩⟩
  | .int _ => new _ _
  | .float _ => new _ _
  | .str _ => new _ _
  | .code u => by
    have := loadCode u
    unfold Vm.loadConstant
    infer_instance

theorem loadConstants : ∀ cs, Sure (Vm.loadConstants cs)
  | [] => return_ []
  | c :: rest => by
    have := loadConstant c
    have := loadConstants rest
    unfold Vm.loadConstants
    infer_instance

end

instance newMember (module : Ref) (name : String) (member : Member) :
    Sure (Vm.newMember module name member) := by
  cases member with
  | native f => exact newMethod _ _ _
  | code unit =>
    have := loadCode unit
    unfold Vm.newMember Vm.newBytecodeMethod
    infer_instance

instance importMembers (module : Ref) (members : List (String × Member)) :
    Sure (Vm.importMembers module members) := by
  induction members with
  | nil => exact return_ ()
  | cons m rest ih => unfold Vm.importMembers; infer_instance

end Sure

namespace Vm

variable {v v' : Vm} {name : String} {r : Ref}

/-- A module that is in the table is what importing its name gives. -/
theorem importModule_found (hr : v.modules.find? name = some r) :
    importModule name v = .ok r v := by
  have hget : (get : Action Vm) v = .ok v v := rfl
  unfold importModule
  rw [bind_ok hget, hr]
  rfl

/-- Only a name that is neither in the table nor registered cannot be imported, and then nothing
happens. -/
theorem importModule_error {e : Stop} (hrun : importModule name v = .error e v') :
    v' = v ∧ e = .raised (.noModule name) ∧ v.modules.find? name = none ∧
      v.registry.find? name = none := by
  cases hfound : v.modules.find? name with
  | some m =>
    rw [importModule_found hfound] at hrun
    cases hrun
  | none =>
    have hget : (get : Action Vm) v = .ok v v := rfl
    unfold importModule at hrun
    rw [bind_ok hget, hfound] at hrun
    dsimp only at hrun
    rw [bind_ok hget] at hrun
    cases hspec : v.registry.find? name with
    | none =>
      rw [hspec] at hrun
      cases hrun
      exact ⟨rfl, rfl, rfl, rfl⟩
    | some spec =>
      rw [hspec] at hrun
      dsimp only at hrun
      exact (Sure.not_error hrun).elim

/-- What is imported is the entry of its name, and if it is made for that, then with its members. -/
theorem importModule_entry (hv : v.Housed) (hf : v.heap.FreeList)
    (hrun : importModule name v = .ok r v') : v'.modules.find? name = some r ∧
      (v.modules.find? name = none → ∃ spec, v.registry.find? name = some spec ∧
        v'.heap.Stocked name spec.members.entries r) := by
  have himport := importModule_yields name hf
  obtain ⟨-, hnamed, hstocked⟩ := himport.result r v' hrun
  have hcatalogued := (himport.works.of_ok hrun).modules hv.catalogued
  exact ⟨(hcatalogued name r).mpr (hnamed hv.catalogued), hstocked⟩

/-- A method that arrives looks names up in the module that has the name of the module it was sent
from. -/
theorem unpack_method {n : String} {body : PackedBody} {receiver : Option Packed} {x : Ref}
    (hv : v.Housed) (hf : v.heap.FreeList)
    (hrun : unpack (.method n body receiver) v = .ok x v') :
    ∃ m, v'.heap.payload x = .ok (.method m) ∧ ∀ name, body.module? = some name →
      ∃ r, m.body.module? = some r ∧ v'.modules.find? name = some r := by
  have hadds := unpackOption_adds receiver
  have hmade : v.Yields v (unpack (.method n body receiver)) fun v' x =>
      ∃ m, v'.heap.payload x = .ok (.method m) ∧ ∀ name, body.module? = some name →
        ∃ r, m.body.module? = some r ∧ v'.heap.ModuleNamed name r := by
    unfold unpack
    refine (Yields.of_adds (a := unpackOption receiver) hf).bind fun found v₁ hw _ => ?_
    refine ((unpackBody_yields body hw.heap.freeList).lift hw).bind fun b v₂ hw₂ hbody => ?_
    obtain ⟨-, hwhole, hneat, hnamed⟩ := hbody
    have hv₁ := hv.proceeds hw.toProceeds
    refine (newMethod_yields hw₂ n found hwhole (fun _ => ?_) fun _ => (hneat hv₁.toNeat).2).imp
      fun v₃ x _ hx => ⟨_, hx.1, fun name hname => ?_⟩
    · exact (hneat hv₁.toNeat).1.since fun _ => hw.heap.contains
    · obtain ⟨r, hr, hmodule⟩ := hnamed hv₁.catalogued name hname
      exact ⟨r, hr, (Heap.Evolves.of_eq (A := noVar) hx.2).moduleNamed hmodule⟩
  have hcatalogued := (hmade.works.of_ok hrun).modules hv.catalogued
  obtain ⟨m, hm, hmodule⟩ := hmade.result x v' hrun
  refine ⟨m, hm, fun name hname => ?_⟩
  obtain ⟨r, hr, hnamed⟩ := hmodule name hname
  exact ⟨r, hr, (hcatalogued name r).mpr hnamed⟩

/-- A method is sent with the name of its module. -/
theorem pack_method (hv : v.Housed) {x r : Ref} {p : Packed} {m : Method}
    (hp : v.heap.pack x = .ok p) (hm : v.heap.payload x = .ok (.method m))
    (hr : m.body.module? = some r) :
    ∃ name body receiver, p = .method m.name body receiver ∧ body.module? = some name ∧
      v.modules.find? name = some r := by
  obtain ⟨o, ho, hcontents⟩ := Heap.packWithin_eq_ok.mp hp
  obtain rfl : o = .method m := Except.ok.inj (ho.symm.trans hm)
  cases hcontents with
  | @method _ body receiver hbody _ =>
    have hnamed : ∀ {module : Option Ref} {name : Option String}, module = some r →
        v.heap.view.Named module name → ∃ n, name = some n ∧ v.modules.find? n = some r := by
      rintro _ _ rfl hname
      cases hname with
      | some hmodule =>
        obtain ⟨d, hd, rfl⟩ := hmodule
        exact ⟨d.name, rfl, (hv.catalogued _ _).mpr ⟨_, hd, rfl⟩⟩
    cases hb : m.body with
    | native f =>
      rw [hb] at hr
      cases hr
    | bytecode code module =>
      rw [hb] at hr hbody
      cases hbody with
      | bytecode _ hname =>
        obtain ⟨n, rfl, hfound⟩ := hnamed hr hname
        exact ⟨n, _, _, rfl, rfl, hfound⟩
    | closure code module bindings =>
      rw [hb] at hr hbody
      cases hbody with
      | closure _ hname _ =>
        obtain ⟨n, rfl, hfound⟩ := hnamed hr hname
        exact ⟨n, _, _, rfl, rfl, hfound⟩

/-! ## Methods made of others -/

/-- A closure looks names up in the module of the frame that makes it. -/
theorem makeClosure_module {code x : Ref} (hf : v.heap.FreeList)
    (hrun : makeClosure code v = .ok x v') : ∃ f m, v.frames.back? = some f ∧
      v'.heap.payload x = .ok (.method m) ∧ m.body.module? = f.module := by
  unfold makeClosure at hrun
  obtain ⟨unit, v₁, hunit, hrest⟩ := bind_eq_ok.mp hrun
  obtain rfl := Reads.of_ok hunit
  obtain ⟨f, v₂, htop, hrest⟩ := bind_eq_ok.mp hrest
  obtain ⟨hback, rfl⟩ := top_eq_ok.mp htop
  obtain ⟨vars, v₃, hvars, hmethod⟩ := bind_eq_ok.mp hrest
  obtain rfl := Reads.of_ok hvars
  rw [newMethod, new_eq] at hmethod
  cases hmethod
  exact ⟨f, _, hback, Heap.payload_place_self hf _, rfl⟩

/-- A bound method looks names up where the method does. -/
theorem bind_module {method receiver x : Ref} (hf : v.heap.FreeList)
    (hrun : Vm.bind method receiver v = .ok x v') : ∃ m n,
      v.heap.payload method = .ok (.method m) ∧ v'.heap.payload x = .ok (.method n) ∧
        n.body.module? = m.body.module? := by
  unfold Vm.bind at hrun
  obtain ⟨p, v₁, hp, hcopy⟩ := bind_eq_ok.mp hrun
  obtain ⟨hm, rfl⟩ := payload_eq_ok.mp hp
  cases p with
  | method m =>
    dsimp only at hcopy
    rw [new_eq] at hcopy
    cases hcopy
    exact ⟨m, _, hm, Heap.payload_place_self hf _, rfl⟩
  | _ => cases hcopy

end Vm

/-! ## Runs -/

theorem Session.housed {registry : Registry} {config : Config} {heap : Nat} {task : TaskId}
    {s : Session} (hs : (boot registry config heap task).ReachesBy Vm.Permits Vm.Grants s) :
    s.Orderly ∧ s.vm.Housed :=
  hs.invariant (.boot registry config heap task) fun _ _ hlive hst h =>
    Vm.Housed.lasts.step h hlive hst

/-- In every run in which the embedding program makes no module by hand, there is one live module of
each name at most, which is the entry of the name in the module table, and all methods, closures and
running frames that look names up in a module hold such an entry. A method or closure that is made
of another one, or in a frame, looks names up in the same module; a member of a module that is
imported looks them up in that module; and a method that arrives from another task looks them up in
the module of the same name. What importing a name gave once it gives ever after, and an import that
fails changes nothing. -/
theorem Session.one_module_per_name (registry : Registry) (config : Config) (heap : Nat)
    (task : TaskId) {s : Session}
    (hs : (boot registry config heap task).ReachesBy Vm.Permits Vm.Grants s) :
    (∀ name r, s.vm.modules.find? name = some r ↔ s.vm.heap.ModuleNamed name r) ∧
    (∀ name r r', s.vm.heap.ModuleNamed name r → s.vm.heap.ModuleNamed name r' → r = r') ∧
    (∀ r, s.vm.Scope r → ∃ name, s.vm.heap.ModuleNamed name r ∧
      s.vm.modules.find? name = some r) ∧
    (s.Open → ∀ f ∈ s.vm.frames, ∃ m, s.vm.heap.payload f.method = .ok (.method m) ∧
      m.body.module? = f.module) ∧
    (∀ code x vm', Vm.makeClosure code s.vm = .ok x vm' → ∃ f m, s.vm.frames.back? = some f ∧
      vm'.heap.payload x = .ok (.method m) ∧ m.body.module? = f.module) ∧
    (∀ method receiver x vm', Vm.bind method receiver s.vm = .ok x vm' → ∃ m n,
      s.vm.heap.payload method = .ok (.method m) ∧ vm'.heap.payload x = .ok (.method n) ∧
        n.body.module? = m.body.module?) ∧
    (∀ name r vm', Vm.importModule name s.vm = .ok r vm' →
      vm'.modules.find? name = some r ∧
        (s.vm.modules.find? name = none → ∃ spec, s.vm.registry.find? name = some spec ∧
          vm'.heap.Stocked name spec.members.entries r)) ∧
    (∀ name r t, s.vm.modules.find? name = some r → s.ReachesBy Vm.Permits Vm.Grants t →
      Vm.importModule name t.vm = .ok r t.vm) ∧
    (∀ name e vm', Vm.importModule name s.vm = .error e vm' →
      vm' = s.vm ∧ e = .raised (.noModule name)) ∧
    (∀ x p m r, s.vm.heap.pack x = .ok p → s.vm.heap.payload x = .ok (.method m) →
      m.body.module? = some r → ∃ name body receiver, p = .method m.name body receiver ∧
        body.module? = some name ∧ s.vm.modules.find? name = some r) ∧
    ∀ n body receiver x vm', Vm.unpack (.method n body receiver) s.vm = .ok x vm' →
      ∃ m, vm'.heap.payload x = .ok (.method m) ∧ ∀ name, body.module? = some name →
        ∃ r, m.body.module? = some r ∧ vm'.modules.find? name = some r := by
  obtain ⟨horderly, hhoused⟩ := housed hs
  have hf := horderly.live.vm_live.heap.freeList
  refine ⟨hhoused.catalogued, ?_, ?_, ?_, fun _ _ _ => Vm.makeClosure_module hf,
    fun _ _ _ _ => Vm.bind_module hf, fun _ _ _ => Vm.importModule_entry hhoused hf, ?_, ?_,
    fun _ _ _ _ => Vm.pack_method hhoused, fun _ _ _ _ _ => Vm.unpack_method hhoused hf⟩
  · intro name r r' hr hr'
    rw [← hhoused.catalogued] at hr hr'
    exact Option.some.inj (hr.symm.trans hr')
  · intro r hr
    obtain ⟨name, hname⟩ := Heap.isModule_iff.mp (hhoused.scopes r hr)
    exact ⟨name, hname, (hhoused.catalogued name r).mpr hname⟩
  · intro hopen f hmem
    obtain ⟨hm, -, hmodule, -⟩ := horderly.framed hopen f hmem
    exact ⟨_, hm, hmodule⟩
  · intro name r t hr ht
    have hkept := (Vm.Housed.lasts_entry name r).reaches ⟨hhoused, hr⟩ horderly.live ht
    exact Vm.importModule_found hkept.2
  · intro name e vm' hrun
    obtain ⟨hsame, he, -⟩ := Vm.importModule_error hrun
    exact ⟨hsame, he⟩

/-- A method of a module `shapes` on its way to another task. -/
def sentArea : Packed :=
  .method "area" (.bytecode {} (some "shapes")) none

/-- The method arrives and is bound to a global name, and a collection keeps it and its module. -/
def Vm.keepsArea (vm : Vm) : Bool :=
  match (Operation.unpack sentArea).run [] vm with
  | .ok [method] vm₁ =>
    match (Operation.setGlobal "area").run [method] vm₁ with
    | .ok _ vm₂ =>
      match Vm.collect vm₂ with
      | .ok _ vm₃ =>
        match vm₃.heap.payload method with
        | .ok (.method m) => vm₁.heap.contains method && vm₃.heap.collections == 1 &&
            m.body.module?.isSome && m.body.module? == vm₃.modules.find? "shapes"
        | _ => false
      | _ => false
    | _ => false
  | _ => false

/-- A method that arrived, after a collection: it holds the one module of its name, which importing
that name gives again. -/
theorem Session.one_module_per_name_arrived :
    ∃ (vm : Vm) (method r : Ref) (m : Method),
      (boot (.ofList [⟨"shapes", ⟨[("area", .code {})]⟩⟩]) {} 0 ⟨0, 0⟩).ReachesBy
        Vm.Permits Vm.Grants (.idle vm) ∧
      vm.heap.collections = 1 ∧ vm.heap.payload method = .ok (.method m) ∧
      m.body.module? = some r ∧ vm.heap.ModuleNamed "shapes" r ∧
      (∀ r', vm.heap.ModuleNamed "shapes" r' → r' = r) ∧
      Vm.importModule "shapes" vm = .ok r vm := by
  let vm₀ := Vm.boot (.ofList [⟨"shapes", ⟨[("area", .code {})]⟩⟩]) {} 0 ⟨0, 0⟩
  have hrun : vm₀.keepsArea = true := by decide +kernel
  unfold Vm.keepsArea at hrun
  split at hrun <;> try cases hrun
  rename_i method vm₁ h₁
  split at hrun <;> try cases hrun
  rename_i rs vm₂ h₂
  split at hrun <;> try cases hrun
  rename_i n vm₃ h₃
  split at hrun <;> try cases hrun
  rename_i m hm
  simp only [Bool.and_eq_true, beq_iff_eq] at hrun
  obtain ⟨⟨⟨hlive, hone⟩, hsome⟩, hentry⟩ := hrun
  obtain ⟨r, hr⟩ := Option.isSome_iff_exists.mp hsome
  have hfirst : StepBy Vm.Permits Vm.Grants (.idle vm₀) _ :=
    .operation (.unpack sentArea) (List.forall_mem_nil _) trivial
  have hsecond : StepBy Vm.Permits Vm.Grants (.idle vm₁) _ :=
    .operation (.setGlobal "area") (List.forall_mem_singleton.mpr hlive) trivial
  have hthird : StepBy Vm.Permits Vm.Grants (.idle vm₂) _ := .collect
  rw [h₁] at hfirst
  rw [h₂] at hsecond
  rw [h₃] at hthird
  have hreach : ReachesBy Vm.Permits Vm.Grants (.idle vm₀) (.idle vm₃) :=
    .tail (.tail (.single hfirst) hsecond) hthird
  obtain ⟨htable, hunique, -, -, -, -, -, hagain, -⟩ :=
    one_module_per_name _ {} 0 ⟨0, 0⟩ hreach
  have hfound : vm₃.modules.find? "shapes" = some r := hentry.symm.trans hr
  have hnamed := (htable "shapes" r).mp hfound
  exact ⟨vm₃, method, r, m, hreach, hone, hm, hr, hnamed,
    fun r' hr' => hunique "shapes" r' r hr' hnamed, hagain "shapes" r _ hfound .refl⟩

end ObjectMachine
