import ObjectMachine.Proofs.Scopes.Instructions

/-!
# ObjectMachine.Proofs.Scopes.OneName

A variable has one name.

Every frame, closure and module that binds a variable binds it under the same name. The embedding
program could do otherwise: it can make a frame, a module or a closure by hand, and put a variable
in a module. As long as it gives no variable a second name itself, no variable gets one.

* `Vm.Named` — every variable that is bound has one name.
* `Vm.Fits`, `Vm.Accepts` — what the embedding program may make by hand.
* `Vm.Named.lasts` — every step keeps the names apart.
* `Session.named` — so does every run.
-/

namespace ObjectMachine

open ObjectMachine.Action

/-- Names are bound to variables, and each to variables of its own. -/
structure Vm.Named (v : Vm) : Prop extends v.Neat where
  one : ∀ name other x, v.heap.Bound name x → v.heap.Bound other x → name = other

/-- Contents that give no variable a second name. -/
structure Vm.Fits (v : Vm) (p : Payload) : Prop where
  vars : ∀ name x, p.Binds name x → v.heap.IsVar x
  one : ∀ name other x, p.Binds name x → p.Binds other x ∨ v.heap.Bound other x → name = other
  scope : ∀ m r, p = .method m → m.body.module? = some r → v.heap.IsModule r

/-- A method gets a module, if anything, and a module gets no variable that has another name. -/
def Vm.Accepts (v : Vm) : Operation → List Ref → Prop
  | .method _, [r] => v.heap.IsModule r
  | .addLocal name, [_, x] => v.heap.IsVar x ∧ ∀ other, v.heap.Bound other x → other = name
  | _, _ => True

/-! ## Bound variables and modules are there -/

/-- What is bound is held on to. -/
theorem Payload.Binds.mem_refs {p : Payload} {name : String} {x : Ref} (h : p.Binds name x) :
    x ∈ p.refs := by
  cases p with
  | frame f =>
    rcases h with hlocal | hfree
    · simp [refs, markFn?, MarkFn.targets, NameMap.mem_values hlocal]
    · simp [refs, markFn?, MarkFn.targets, NameMap.mem_values hfree]
  | module m => exact NameMap.mem_values h
  | method m =>
    obtain ⟨n, body, receiver⟩ := m
    cases body with
    | closure code module bindings =>
      have hmem := NameMap.mem_values (m := bindings) h
      simp [refs, markFn?, MarkFn.targets, hmem]
    | _ => cases h
  | _ => exact h.elim

theorem Heap.Closed.bound_live {h : Heap} (hc : h.Closed) {name : String} {x : Ref}
    (hb : h.Bound name x) : h.contains x = true := by
  obtain ⟨r, p, hp, hx⟩ := hb
  exact hc.refs_live hp hx.mem_refs

theorem Vm.Live.scope_live {v : Vm} (h : v.Live) {r : Ref} (hr : v.Scope r) :
    v.heap.contains r = true := by
  cases hr with
  | frame hmem hmodule => exact h.frame_live hmem (by simp [hmodule])
  | method hm hmodule => exact h.heap.closed.refs_live hm (Method.mem_refs (.inr (.inr hmodule)))
  | table hfound => exact h.roots r (mem_roots_modules (NameMap.mem_values hfound))

/-! ## What keeps the names apart -/

section Swept

variable {v u : Vm}

/-- What is there after a collection was there before. -/
theorem Vm.Swept.payload_back (hs : v.Swept u) {r : Ref} {p : Payload}
    (hp : u.heap.payload r = .ok p) : v.heap.payload r = .ok p := by
  obtain ⟨k, hk⟩ := Heap.payload_eq_ok_iff.mp hp
  exact Heap.payload_eq_ok_iff.mpr ⟨k, hs.remains.get r _ hk⟩

theorem Vm.Swept.scope_back (hs : v.Swept u) {r : Ref} (hr : u.Scope r) : v.Scope r := by
  have hframes : u.frames = v.frames := by rw [hs.state]
  have hmodules : u.modules = v.modules := by rw [hs.state]
  cases hr with
  | frame hmem hmodule => exact .frame (hframes ▸ hmem) hmodule
  | method hm hmodule => exact .method (hs.payload_back hm) hmodule
  | table hfound => exact .table (hmodules ▸ hfound)

/-- Some objects may be gone, but none that something is left of. -/
theorem Vm.Neat.restrict (h : v.Neat)
    (hback : ∀ r p, u.heap.payload r = .ok p → v.heap.payload r = .ok p)
    (hscope : ∀ r, u.Scope r → v.Scope r)
    (hkept : ∀ r p, (∃ name, u.heap.Bound name r) ∨ u.Scope r → v.heap.payload r = .ok p →
      u.heap.payload r = .ok p) : u.Neat := by
  refine ⟨fun name x hb => ?_, fun r hr => ?_⟩
  · obtain ⟨r, p, hp, hx⟩ := hb
    obtain ⟨value, hvalue⟩ := h.vars name x ⟨r, p, hback r p hp, hx⟩
    exact ⟨value, hkept x _ (.inl ⟨name, r, p, hp, hx⟩) hvalue⟩
  · obtain ⟨m, hm⟩ := h.scopes r (hscope r hr)
    exact ⟨m, hkept r _ (.inr hr) hm⟩

theorem Vm.Neat.swept (h : v.Neat) (hs : v.Swept u) : u.Neat := by
  have hlive := Vm.Live.swept hs
  refine h.restrict (fun r p => hs.payload_back) (fun r => hs.scope_back) fun r p hr hp =>
    hs.remains.payload hp ?_
  rcases hr with ⟨name, hb⟩ | hr
  · exact hlive.heap.closed.bound_live hb
  · exact hlive.scope_live hr

/-- Other roots make no difference. -/
theorem Vm.Neat.roots (h : v.Neat) (roots temps : List Ref) :
    Vm.Neat { v with heap := { v.heap with roots := roots }, temps := temps } := by
  refine h.restrict (fun _ _ hp => hp) (fun r hr => ?_) fun _ _ _ hp => hp
  cases hr with
  | frame hmem hmodule => exact .frame hmem hmodule
  | method hm hmodule => exact .method hm hmodule
  | table hfound => exact .table hfound

end Swept

namespace Vm.Named

variable {v u v' : Vm} {x : Ref}

theorem swept (h : v.Named) (hs : v.Swept u) : u.Named := by
  have hbound : ∀ {name x}, u.heap.Bound name x → v.heap.Bound name x := by
    rintro name x ⟨r, p, hp, hx⟩
    exact ⟨r, p, hs.payload_back hp, hx⟩
  exact ⟨h.toNeat.swept hs, fun name other x hb hb' => h.one name other x (hbound hb) (hbound hb')⟩

theorem proceeds {R : Payload → Payload → Prop} (h : v.Named) (hp : v.Proceeds R v') :
    v'.Named := by
  have hnames := hp.names h.toNeat
  refine ⟨hnames.neat, fun name other x hb hb' => ?_⟩
  cases hx : v.heap.contains x with
  | true => exact h.one name other x (hnames.kept name x hx hb) (hnames.kept other x hx hb')
  | false => exact hnames.single name other x hx hb hb'

/-- An object made by hand. -/
theorem place (h : v.Named) (hf : v.heap.FreeList) (k : Ref) {p : Payload} (hp : v.Fits p) :
    Vm.Named { v with heap := (v.heap.place ⟨k, p⟩).2 } := by
  refine ⟨h.toNeat.place hf k hp.vars hp.scope, fun name other x hb hb' => ?_⟩
  rcases Heap.binds_place hf hb with hold | hnew
  · rcases Heap.binds_place hf hb' with hold' | hnew'
    · exact h.one name other x hold hold'
    · exact (hp.one other name x hnew' (.inr hold)).symm
  · exact hp.one name other x hnew ((Heap.binds_place hf hb').symm)

/-- A variable put in a module by hand. -/
theorem addLocal (h : v.Named) (r : Ref) {name : String} (hx : v.heap.IsVar x)
    (hone : ∀ other, v.heap.Bound other x → other = name) :
    Vm.Named { v with heap := v.heap.update r (Payload.addLocal name x) } := by
  refine ⟨h.toNeat.addLocal r name hx, fun n n' y hb hb' => ?_⟩
  rcases Heap.bound_addLocal hb with hold | ⟨hn, hy⟩
  · rcases Heap.bound_addLocal hb' with hold' | ⟨hn', hy'⟩
    · exact h.one n n' y hold hold'
    · exact (hone n (hy' ▸ hold)).trans hn'.symm
  · rcases Heap.bound_addLocal hb' with hold' | ⟨hn', -⟩
    · exact hn.trans (hone n' (hy ▸ hold')).symm
    · exact hn.trans hn'.symm

/-! ## Runs -/

/-- That each variable has one name lasts as long as nothing made by hand says otherwise. -/
theorem lasts : Vm.Lasts Vm.Fits Vm.Accepts Vm.Named where
  swept := swept
  proceeds := proceeds
  place k h hf hp := h.place hf k hp
  addLocal h ha := h.addLocal _ ha.1 ha.2
  roots h := ⟨h.toNeat.roots _ _, h.one⟩
  module ha := ha

theorem moves {R : Payload → Payload → Prop} [Gentle R] (h : v.Named) (hm : v.Moves R v') :
    v'.Named :=
  lasts.moves h hm

/-- Nothing is bound in a new task. -/
theorem boot (registry : Registry) (config : Config) (heap : Nat) (task : TaskId) :
    (Vm.boot registry config heap task).Named := by
  have hunbound : ∀ name x, ¬ (Vm.bare registry config heap task).heap.Bound name x := by
    rintro name x ⟨r, p, hp, hx⟩
    rcases Vm.bare_payload hp with ⟨c, rfl⟩ | rfl | ⟨b, rfl⟩ <;> exact hx
  refine Named.proceeds ?_ (Vm.boot_proceeds registry config heap task)
  refine ⟨⟨fun name x hb => absurd hb (hunbound name x), fun r hr => ?_⟩,
    fun name _ x hb => absurd hb (hunbound name x)⟩
  cases hr with
  | frame hmem _ => exact absurd hmem (Array.not_mem_empty _)
  | table hfound => cases hfound
  | method hm _ =>
    obtain ⟨c, heq⟩ | heq | ⟨b, heq⟩ := Vm.bare_payload hm <;> cases heq

end Vm.Named

/-- In every run in which the embedding program gives no variable a second name by hand, every
variable has one name. -/
theorem Session.named {registry : Registry} {config : Config} {heap : Nat} {task : TaskId}
    {s : Session} (hs : (boot registry config heap task).ReachesBy Vm.Fits Vm.Accepts s) :
    s.Orderly ∧ s.vm.Named :=
  hs.invariant (.boot registry config heap task) fun _ _ hlive hst h =>
    Vm.Named.lasts.step h hlive hst

end ObjectMachine
