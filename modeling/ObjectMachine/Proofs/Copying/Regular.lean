import ObjectMachine.Proofs.Copying.Orders
import ObjectMachine.Proofs.Renaming.Boot
import ObjectMachine.Proofs.Vm.Quiet

/-!
# ObjectMachine.Proofs.Copying.Regular

States in which values can be rebuilt, and how rebuilding changes them.

* `Heap.Regular`, `Vm.Regular` — objects are compared by their kind, the singletons and the built-in
  classes are in place, and modules go by names that the registry knows.
* `Vm.Grows` — all objects stay as they are, with the exception of one at most, and new ones come.
* `Vm.new_builds`, `Vm.update_builds` — allocation, and filling what was allocated before.
* `Vm.loadCode_builds`, `Vm.importModule_builds` — code and modules.
* `Vm.boot_regular` — a new task is in such a state.
-/

namespace ObjectMachine

/-! ### Heaps -/

namespace Heap

/-- A heap with the built-in dispatch tables, between two operations: no comparison is going on, the
built-in classes compare by kind, and the singletons stand in their places. -/
structure Regular (h : Heap) : Prop extends h.ByKind where
  freeList : h.FreeList
  nesting : h.nesting = 0
  builtin : ∀ p k, Builtin.ofPayload? p = some k → h.Compares (k.ref h.id) p
  nilLive : h.payload (nilRef h.id) = .ok .nil
  boolLive : ∀ b, h.payload (boolRef h.id b) = .ok (.bool b)

variable {h h' : Heap}

theorem Compares.mono (hkeep : h.KeepsClasses h') {k : Ref} {p : Payload} (hc : h.Compares k p) :
    h'.Compares k p := by
  obtain ⟨cs, hlin, hcmp⟩ := hc
  obtain ⟨cs', hlin', hslots⟩ := hlin.mono hkeep
  have hmap : ∀ ds : List Class,
      ds.findSome? (fun c => c.slots.cmp) = (ds.map Class.slots).findSome? Slots.cmp := by
    intro ds
    rw [List.findSome?_map]
    rfl
  exact ⟨cs', hlin', by rw [hmap, hslots, ← hmap, hcmp]⟩

/-- An object that may be among those of a heap that was regular with `h`: one of `h` with contents
of the same kind, or a new one of a built-in class. -/
def Welcome (h : Heap) (r : Ref) (o : Obj) : Prop :=
  (∃ o₀, h.get r = .ok o₀ ∧ o₀.cls = o.cls ∧ o₀.payload.cmpFn? = o.payload.cmpFn? ∧
      (o.payload = .nil → o₀.payload = .nil)) ∨
    ∃ k, Builtin.ofPayload? o.payload = some k ∧ o.cls = k.ref h.id ∧ o.payload ≠ .nil

theorem Regular.change (hr : h.Regular) (hid : h'.id = h.id) (hnest : h'.nesting = h.nesting)
    (hfree : h'.FreeList) (hkeep : h.KeepsClasses h')
    (hsingle : ∀ r p, p = .nil ∨ (∃ b, p = .bool b) → h.payload r = .ok p → h'.payload r = .ok p)
    (hobjs : ∀ r o, h'.get r = .ok o → h.Welcome r o) : h'.Regular where
  compares := by
    intro r o ho
    rcases hobjs r o ho with ⟨o₀, hg, hcls, hcmp, -⟩ | ⟨k, hkind, hcls, -⟩
    · obtain ⟨cs, hlin, hfind⟩ := (hr.compares r o₀ hg).mono hkeep
      exact ⟨cs, hcls ▸ hlin, hfind.trans hcmp⟩
    · rw [hcls]
      exact (hr.builtin _ k hkind).mono hkeep
  nil := by
    intro r hn
    obtain ⟨k, hg⟩ := payload_eq_ok_iff.mp hn
    rcases hobjs r _ hg with ⟨⟨k₀, p₀⟩, hg₀, -, -, hnil⟩ | ⟨k, -, -, hnil⟩
    · rw [hid]
      refine hr.nil r (payload_eq_ok_iff.mpr ⟨k₀, ?_⟩)
      rw [hg₀, show p₀ = .nil from hnil rfl]
    · exact absurd rfl hnil
  freeList := hfree
  nesting := hnest.trans hr.nesting
  builtin := by
    intro p k hkind
    rw [hid]
    exact (hr.builtin p k hkind).mono hkeep
  nilLive := by
    rw [hid]
    exact hsingle _ _ (.inl rfl) hr.nilLive
  boolLive := by
    intro b
    rw [hid]
    exact hsingle _ _ (.inr ⟨b, rfl⟩) (hr.boolLive b)

theorem payload_place_of_payload (hf : h.FreeList) (o : Obj) {r : Ref} {p : Payload}
    (hp : h.payload r = .ok p) : (h.place o).2.payload r = .ok p := by
  obtain ⟨k, hk⟩ := payload_eq_ok_iff.mp hp
  exact payload_eq_ok_iff.mpr ⟨k, get_place_of_get hf o hk⟩

theorem Regular.place (hr : h.Regular) {k : Builtin} {p : Payload}
    (hkind : Builtin.ofPayload? p = some k) (hnil : p ≠ .nil) :
    (h.place ⟨k.ref h.id, p⟩).2.Regular := by
  have hf := hr.freeList
  refine hr.change (place_id _ _) (place_nesting _ _) (place_freeList hf _)
    (place_keepsClasses hf _) (fun r q _ hq => payload_place_of_payload hf _ hq) ?_
  intro r o ho
  rcases get_place_cases hf _ ho with ⟨-, rfl⟩ | ho
  · exact .inr ⟨k, hkind, rfl, hnil⟩
  · exact .inl ⟨o, ho, rfl, rfl, fun hn => hn⟩

/-! Contents that are filled in: entries of a hash, variables of a module, methods of a class. -/

/-- The same kind of container with other contents; a module keeps its name, a class its place and
its dispatch table. -/
inductive Refilled : Payload → Payload → Prop where
  | hash (s t : HashTable) : Refilled (.hash s) (.hash t)
  | module {d e : Module} : e.name = d.name → Refilled (.module d) (.module e)
  | cls {c d : Class} : d.super = c.super → d.slots = c.slots → Refilled (.cls c) (.cls d)

section Update

variable {x : Ref} {f : Payload → Payload} {p q : Payload}

theorem Refilled.left (hpq : Refilled p q) : p ≠ .nil ∧ ∀ b, p ≠ .bool b := by
  cases hpq <;> simp

theorem Refilled.right (hpq : Refilled p q) : q ≠ .nil ∧ p.cmpFn? = q.cmpFn? := by
  cases hpq <;> simp [Payload.cmpFn?]

theorem get_update_ne (hx : h.payload x = .ok p) {r : Ref} {o : Obj} (hne : r ≠ x)
    (hr : h.get r = .ok o) : (h.update x f).get r = .ok o := by
  obtain ⟨k, hk⟩ := payload_eq_ok_iff.mp hx
  rw [get_update_of_get hr, if_neg]
  intro hcell
  exact hne (eq_of_cell_eq (contains_of_get hk) (contains_of_get hr) hcell).symm

theorem payload_update_self (hx : h.payload x = .ok p) : (h.update x f).payload x = .ok (f p) := by
  obtain ⟨k, hk⟩ := payload_eq_ok_iff.mp hx
  exact payload_eq_ok_iff.mpr ⟨k, by rw [get_update_of_get hk, if_pos rfl]⟩

/-- An object after filling is the one that was filled, or what it was. -/
theorem get_update_inv (hx : h.payload x = .ok p) {r : Ref} {o : Obj}
    (hr : (h.update x f).get r = .ok o) :
    (r = x ∧ o.payload = f p ∧ ∃ o₀, h.get r = .ok o₀ ∧ o₀.cls = o.cls ∧ o₀.payload = p) ∨
      (r ≠ x ∧ h.get r = .ok o) := by
  obtain ⟨o₀, hg, -⟩ := get_update_cases hr
  by_cases hrx : r = x
  · subst hrx
    obtain ⟨k, hk⟩ := payload_eq_ok_iff.mp hx
    rw [get_update_of_get hk, if_pos rfl] at hr
    cases hr
    exact .inl ⟨rfl, rfl, _, hk, rfl, rfl⟩
  · rw [get_update_ne hx hrx hg] at hr
    cases hr
    exact .inr ⟨hrx, hg⟩

theorem Regular.update (hr : h.Regular) (hx : h.payload x = .ok p) (hf : Refilled p (f p)) :
    (h.update x f).Regular := by
  have hother : ∀ {r : Ref} {o : Obj}, h.get r = .ok o → p ≠ o.payload →
      (h.update x f).get r = .ok o := by
    intro r o ho hp
    refine get_update_ne hx ?_ ho
    rintro rfl
    obtain ⟨k, hk⟩ := payload_eq_ok_iff.mp hx
    rw [ho] at hk
    cases hk
    exact hp rfl
  refine hr.change rfl rfl (update_freeList hr.freeList x f) ?_ ?_ ?_
  · intro y c hc
    obtain ⟨k, hk⟩ := cls_eq_ok.mp hc
    by_cases hp : p = .cls c
    · subst hp
      have hg := get_update_of_get (r := x) (f := f) hk
      split at hg
      · generalize f (.cls c) = q at hf hg
        cases hf with
        | @cls _ d hsuper hslots => exact ⟨d, cls_eq_ok.mpr ⟨k, hg⟩, hsuper, hslots⟩
      · exact ⟨c, cls_eq_ok.mpr ⟨k, hg⟩, rfl, rfl⟩
    · exact ⟨c, cls_eq_ok.mpr ⟨k, hother hk hp⟩, rfl, rfl⟩
  · intro y r hq hy
    obtain ⟨k, hk⟩ := payload_eq_ok_iff.mp hy
    refine payload_eq_ok_iff.mpr ⟨k, hother hk ?_⟩
    rcases hq with rfl | ⟨b, rfl⟩
    · exact hf.left.1
    · exact hf.left.2 b
  · intro y o ho
    rcases get_update_inv hx ho with ⟨-, hp, o₀, hg, hcls, hpay⟩ | ⟨-, hg⟩
    · refine .inl ⟨o₀, hg, hcls, by rw [hp, hpay, hf.right.2], ?_⟩
      intro hnil
      exact absurd (hp.symm.trans hnil) hf.right.1
    · exact .inl ⟨o, hg, rfl, rfl, fun hn => hn⟩

end Update
end Heap

/-! ### States of a task -/

/-- A closure captures no name twice. -/
def Body.CapturesOnce : Body → Prop
  | .closure _ _ bindings => bindings.names.Nodup
  | _ => True

/-- What a new object may hold: no nil, of modules only registered ones, and of closures only those
that capture no name twice. -/
structure Payload.Fit (registry : Registry) (p : Payload) : Prop where
  nil : p ≠ .nil
  module : ∀ d, p = .module d → (registry.find? d.name).isSome = true
  method : ∀ m, p = .method m → m.body.CapturesOnce

namespace Vm

/-- A task with the built-in dispatch tables. All its modules are copies of registered ones, and
closures capture each name once. -/
structure Regular (vm : Vm) : Prop where
  heap : vm.heap.Regular
  /-- The module table names module objects of those names. -/
  modules : ∀ name m, vm.modules.find? name = some m →
    ∃ d, vm.heap.payload m = .ok (.module d) ∧ d.name = name
  registered : ∀ r d, vm.heap.payload r = .ok (.module d) →
    (vm.registry.find? d.name).isSome = true
  closures : ∀ r m, vm.heap.payload r = .ok (.method m) → m.body.CapturesOnce

/-- All objects but `x` stay as they are. -/
structure Grows (x : Option Ref) (vm vm' : Vm) : Prop where
  regular : vm'.Regular
  keeps : ∀ r o, x ≠ some r → vm.heap.get r = .ok o → vm'.heap.get r = .ok o
  id : vm'.heap.id = vm.heap.id
  registry : vm'.registry = vm.registry

namespace Grows

variable {x : Option Ref} {u v w : Vm}

theorem refl (hv : v.Regular) : Grows x v v :=
  ⟨hv, fun _ _ _ ho => ho, rfl, rfl⟩

theorem trans (huv : Grows x u v) (hvw : Grows x v w) : Grows x u w where
  regular := hvw.regular
  keeps r o hr ho := hvw.keeps r o hr (huv.keeps r o hr ho)
  id := hvw.id.trans huv.id
  registry := hvw.registry.trans huv.registry

theorem any (h : Grows none u v) : Grows x u v :=
  ⟨h.regular, fun r o _ ho => h.keeps r o nofun ho, h.id, h.registry⟩

/-- What was not there at first does not count. -/
theorem absorb {r : Ref} (huv : Grows none u v) (hr : u.heap.contains r = false)
    (hvw : Grows (some r) v w) : Grows none u w where
  regular := hvw.regular
  keeps s o _ ho := by
    refine hvw.keeps s o ?_ (huv.keeps s o nofun ho)
    rintro ⟨rfl⟩
    rw [Heap.contains_of_get ho] at hr
    cases hr
  id := hvw.id.trans huv.id
  registry := hvw.registry.trans huv.registry

theorem payload (h : Grows x u v) {r : Ref} {p : Payload} (hr : x ≠ some r)
    (hp : u.heap.payload r = .ok p) : v.heap.payload r = .ok p := by
  obtain ⟨k, hk⟩ := Heap.payload_eq_ok_iff.mp hp
  exact Heap.payload_eq_ok_iff.mpr ⟨k, h.keeps r _ hr hk⟩

theorem contains (h : Grows none u v) {r : Ref} (hr : u.heap.contains r = true) :
    v.heap.contains r = true := by
  obtain ⟨o, ho⟩ := Heap.contains_iff.mp hr
  exact Heap.contains_of_get (h.keeps r o nofun ho)

end Grows

/-- The action comes to an end without failing; it changes nothing but `x`, and `Q` holds of the
state it leads to and of its result. -/
def Builds {α : Type} (x : Option Ref) (vm : Vm) (a : Action α) (Q : Vm → α → Prop) : Prop :=
  ∃ r vm', a vm = .ok r vm' ∧ Grows x vm vm' ∧ Q vm' r

namespace Builds

variable {α β : Type} {x : Option Ref} {vm : Vm} {a : Action α} {P Q : Vm → α → Prop}

theorem return_ (hv : vm.Regular) {r : α} (h : Q vm r) : Builds x vm (pure r) Q :=
  ⟨r, vm, rfl, .refl hv, h⟩

theorem bind {f : α → Action β} {R : Vm → β → Prop} (ha : Builds x vm a P)
    (hf : ∀ r vm', Grows x vm vm' → P vm' r → Builds x vm' (f r) R) :
    Builds x vm (a >>= f) R := by
  obtain ⟨r, vm', hrun, hgrow, hp⟩ := ha
  obtain ⟨s, vm'', hrun', hgrow', hR⟩ := hf r vm' hgrow hp
  exact ⟨s, vm'', (Action.bind_ok hrun).trans hrun', hgrow.trans hgrow', hR⟩

theorem imp (ha : Builds x vm a P) (hPQ : ∀ vm' r, Grows x vm vm' → P vm' r → Q vm' r) :
    Builds x vm a Q := by
  obtain ⟨r, vm', hrun, hgrow, hp⟩ := ha
  exact ⟨r, vm', hrun, hgrow, hPQ vm' r hgrow hp⟩

/-- After an action that changes nothing, one that changes `x`. -/
theorem next {f : α → Action β} {R : Vm → β → Prop} (ha : Builds none vm a P)
    (hf : ∀ r vm', Grows none vm vm' → P vm' r → Builds x vm' (f r) R) :
    Builds x vm (a >>= f) R := by
  obtain ⟨r, vm', hrun, hgrow, hp⟩ := ha
  obtain ⟨s, vm'', hrun', hgrow', hR⟩ := hf r vm' hgrow hp
  exact ⟨s, vm'', (Action.bind_ok hrun).trans hrun', hgrow.any.trans hgrow', hR⟩

theorem get_bind {f : Vm → Action β} {R : Vm → β → Prop} (hf : Builds x vm (f vm) R) :
    Builds x vm (get >>= f) R := hf

/-- An object is made and then filled. -/
theorem fill {a : Action Ref} {P : Vm → Ref → Prop} {f : Ref → Action β} {R : Vm → β → Prop}
    (ha : Builds none vm a P) (hnew : ∀ r vm', P vm' r → vm.heap.contains r = false)
    (hf : ∀ r vm', Grows none vm vm' → P vm' r → Builds (some r) vm' (f r) R) :
    Builds none vm (a >>= f) R := by
  obtain ⟨r, vm', hrun, hgrow, hp⟩ := ha
  obtain ⟨s, vm'', hrun', hgrow', hR⟩ := hf r vm' hgrow hp
  exact ⟨s, vm'', (Action.bind_ok hrun).trans hrun', hgrow.absorb (hnew r vm' hp) hgrow', hR⟩

end Builds

/-- A new object that holds the payload. -/
def IsNew (vm : Vm) (p : Payload) (vm' : Vm) (r : Ref) : Prop :=
  vm.heap.contains r = false ∧ vm'.heap.payload r = .ok p

theorem new_eq (vm : Vm) (k : Builtin) (p : Payload) :
    Vm.new k p vm = .ok (vm.heap.place ⟨k.ref vm.heap.id, p⟩).1
      { vm with heap := (vm.heap.place ⟨k.ref vm.heap.id, p⟩).2 } := by
  simp [Vm.new, alloc, Heap.checkOwn, Builtin.ref]

variable {vm : Vm} {x : Ref} {p : Payload}

theorem new_builds {k : Builtin} (hv : vm.Regular) (hkind : Builtin.ofPayload? p = some k)
    (hfit : p.Fit vm.registry) : Builds none vm (Vm.new k p) (IsNew vm p) := by
  have hf := hv.heap.freeList
  let h' := (vm.heap.place ⟨k.ref vm.heap.id, p⟩).2
  have hold : ∀ {r q}, vm.heap.payload r = .ok q → h'.payload r = .ok q :=
    fun hq => Heap.payload_place_of_payload hf _ hq
  have hcases : ∀ {r q}, h'.payload r = .ok q → q = p ∨ vm.heap.payload r = .ok q := by
    intro r q hq
    obtain ⟨k', hk'⟩ := Heap.payload_eq_ok_iff.mp hq
    rcases Heap.get_place_cases hf _ hk' with ⟨-, heq⟩ | hg
    · cases heq
      exact .inl rfl
    · exact .inr (Heap.payload_eq_ok_iff.mpr ⟨k', hg⟩)
  refine ⟨_, _, new_eq vm k p, ⟨⟨hv.heap.place hkind hfit.nil, ?_, ?_, ?_⟩, ?_, ?_, rfl⟩, ?_, ?_⟩
  · intro name m hm
    obtain ⟨d, hd, hname⟩ := hv.modules name m hm
    exact ⟨d, hold hd, hname⟩
  · intro r d hd
    rcases hcases hd with hp | hd
    · exact hfit.module d hp.symm
    · exact hv.registered r d hd
  · intro r m hm
    rcases hcases hm with hp | hm
    · exact hfit.method m hp.symm
    · exact hv.closures r m hm
  · intro r o _ ho
    exact Heap.get_place_of_get hf _ ho
  · exact Heap.place_id _ _
  · exact Heap.place_fresh hf _
  · exact Heap.payload_eq_ok_iff.mpr ⟨_, by rw [Heap.get_place hf, if_pos rfl]⟩

/-- Filling an object. -/
theorem update_builds {f : Payload → Payload} (hv : vm.Regular) (hx : vm.heap.payload x = .ok p)
    (hf : Heap.Refilled p (f p)) :
    Builds (some x) vm (Action.modifyHeap fun h => h.update x f)
      fun vm' _ => vm'.heap.payload x = .ok (f p) := by
  have hself : (vm.heap.update x f).payload x = .ok (f p) := Heap.payload_update_self hx
  have hother : ∀ {r o}, r ≠ x → vm.heap.get r = .ok o → (vm.heap.update x f).get r = .ok o :=
    fun hr ho => Heap.get_update_ne hx hr ho
  have hcases : ∀ {r q}, (vm.heap.update x f).payload r = .ok q →
      (r = x ∧ q = f p) ∨ vm.heap.payload r = .ok q := by
    intro r q hq
    obtain ⟨k, hk⟩ := Heap.payload_eq_ok_iff.mp hq
    rcases Heap.get_update_inv hx hk with ⟨rfl, heq, -⟩ | ⟨-, hg⟩
    · exact .inl ⟨rfl, heq⟩
    · exact .inr (Heap.payload_eq_ok_iff.mpr ⟨k, hg⟩)
  refine ⟨(), { vm with heap := vm.heap.update x f }, rfl,
    ⟨⟨hv.heap.update hx hf, ?_, ?_, ?_⟩, ?_, rfl, rfl⟩, hself⟩
  · intro name m hm
    obtain ⟨d, hd, hname⟩ := hv.modules name m hm
    by_cases hmx : m = x
    · subst hmx
      rw [hx] at hd
      cases hd
      generalize f (.module d) = q at hf hself
      cases hf with
      | @module _ e he => exact ⟨e, hself, he.trans hname⟩
    · obtain ⟨k, hk⟩ := Heap.payload_eq_ok_iff.mp hd
      exact ⟨d, Heap.payload_eq_ok_iff.mpr ⟨k, hother hmx hk⟩, hname⟩
  · intro r d hd
    rcases hcases hd with ⟨rfl, heq⟩ | hd
    · rw [← heq] at hf
      generalize hq : Payload.module d = q at hf
      cases hf with
      | hash => cases hq
      | cls => cases hq
      | @module d₀ e he =>
        cases hq
        rw [he]
        exact hv.registered r d₀ hx
    · exact hv.registered r d hd
  · intro r m hm
    rcases hcases hm with ⟨rfl, heq⟩ | hm
    · rw [← heq] at hf
      generalize hq : Payload.method m = q at hf
      cases hf <;> cases hq
    · exact hv.closures r m hm
  · intro r o hr ho
    exact hother (fun heq => hr (heq ▸ rfl)) ho

/-! ### Code and modules -/

/-- An object of a kind that is neither nil, a module nor a method may always be made. -/
theorem new_builds_plain {k : Builtin} (hv : vm.Regular) (hkind : Builtin.ofPayload? p = some k)
    (hk : k ≠ .nil ∧ k ≠ .module ∧ k ≠ .method) : Builds none vm (Vm.new k p) (IsNew vm p) := by
  refine new_builds hv hkind ⟨?_, ?_, ?_⟩
  · rintro rfl
    exact hk.1 (Option.some.inj hkind).symm
  · rintro d rfl
    exact absurd (Option.some.inj hkind).symm hk.2.1
  · rintro m rfl
    exact absurd (Option.some.inj hkind).symm hk.2.2

theorem newMethod_builds (name : String) {body : Body} (receiver : Option Ref) (hv : vm.Regular)
    (hbody : body.CapturesOnce) :
    Builds none vm (newMethod name body receiver) (IsNew vm (.method ⟨name, body, receiver⟩)) := by
  refine new_builds hv rfl ⟨nofun, nofun, ?_⟩
  rintro m ⟨⟩
  exact hbody

mutual

theorem loadCode_builds : ∀ (unit : CodeUnit) {vm : Vm}, vm.Regular →
    Builds none vm (loadCode unit) fun vm' r =>
      vm.heap.contains r = false ∧ ∃ c, vm'.heap.payload r = .ok (.code c) ∧ c.unit = unit
  | ⟨name, code, consts, names, locals, freevars, arity⟩, vm, hv => by
    unfold loadCode
    refine (loadConstants_builds consts hv).bind fun refs vm₁ hgrow _ => ?_
    refine (new_builds_plain hgrow.regular rfl (by decide)).imp fun vm₂ r _ hr => ?_
    refine ⟨?_, _, hr.2, rfl⟩
    -- what is new after the constants was not there before them
    cases hc : vm.heap.contains r with
    | false => rfl
    | true =>
      have := hr.1
      rw [hgrow.contains hc] at this
      cases this

theorem loadConstant_builds : ∀ (c : Constant) {vm : Vm}, vm.Regular →
    Builds none vm (loadConstant c) fun _ _ => True
  | .nil, vm, hv => ⟨_, vm, by unfold loadConstant nil; rfl, .refl hv, trivial⟩
  | .int i, vm, hv => by
    unfold loadConstant
    exact (new_builds_plain hv rfl (by decide)).imp fun _ _ _ _ => trivial
  | .float f, vm, hv => by
    unfold loadConstant
    exact (new_builds_plain hv rfl (by decide)).imp fun _ _ _ _ => trivial
  | .str text, vm, hv => by
    unfold loadConstant
    exact (new_builds_plain hv rfl (by decide)).imp fun _ _ _ _ => trivial
  | .code unit, vm, hv => by
    unfold loadConstant
    exact (loadCode_builds unit hv).imp fun _ _ _ _ => trivial

theorem loadConstants_builds : ∀ (cs : List Constant) {vm : Vm}, vm.Regular →
    Builds none vm (loadConstants cs) fun _ _ => True
  | [], vm, hv => by
    unfold loadConstants
    exact .return_ hv trivial
  | c :: rest, vm, hv => by
    unfold loadConstants
    refine (loadConstant_builds c hv).bind fun r vm₁ hgrow _ => ?_
    refine (loadConstants_builds rest hgrow.regular).bind fun rs vm₂ hgrow' _ => ?_
    exact .return_ hgrow'.regular trivial

end

theorem newMember_builds (module : Ref) (name : String) (member : Member) (hv : vm.Regular) :
    Builds none vm (newMember module name member) fun _ _ => True := by
  cases member with
  | native f =>
    have hbody : (Body.native f).CapturesOnce := trivial
    exact (newMethod_builds _ _ hv hbody).imp fun _ _ _ _ => trivial
  | code unit =>
    refine (loadCode_builds unit hv).bind fun code vm₁ hgrow _ => ?_
    have hbody : (Body.bytecode code (some module)).CapturesOnce := trivial
    exact (newMethod_builds _ _ hgrow.regular hbody).imp fun _ _ _ _ => trivial

theorem importMembers_builds : ∀ (members : List (String × Member)) {vm : Vm} {d : Module},
    vm.Regular → vm.heap.payload x = .ok (.module d) →
    Builds (some x) vm (importMembers x members) fun vm' _ =>
      ∃ e, vm'.heap.payload x = .ok (.module e) ∧ e.name = d.name := by
  intro members
  induction members with
  | nil =>
    intro vm d hv hx
    exact .return_ hv ⟨d, hx, rfl⟩
  | cons entry rest ih =>
    intro vm d hv hx
    obtain ⟨name, member⟩ := entry
    unfold importMembers
    refine (newMember_builds x name member hv).next fun m vm₁ hgrow₁ _ => ?_
    refine (new_builds_plain hgrow₁.regular rfl (by decide)).next fun var vm₂ hgrow₂ _ => ?_
    have hx₂ := hgrow₂.payload nofun (hgrow₁.payload nofun hx)
    have hfill : Heap.Refilled (.module d)
        (.module { d with locals := d.locals.insert name var }) := .module rfl
    refine (update_builds hgrow₂.regular hx₂ hfill).bind fun _ vm₃ hgrow₃ hx₃ => ?_
    have hx₃ : vm₃.heap.payload x = .ok (.module { d with locals := d.locals.insert name var }) :=
      hx₃
    have hrest := ih hgrow₃.regular hx₃
    exact hrest

theorem trace_builds {y : Option Ref} (on : Channels → Bool) (channel : String) (text : Vm → String)
    (hv : vm.Regular) :
    Builds y vm (trace on channel text) fun vm' _ => vm'.heap = vm.heap := by
  by_cases hon : on vm.config.trace = true
  · refine ⟨(), { vm with log := ("[sable:" ++ channel ++ "] " ++ text vm) :: vm.log }, ?_,
      ⟨⟨hv.heap, hv.modules, hv.registered, hv.closures⟩, fun _ _ _ ho => ho, rfl, rfl⟩, rfl⟩
    show EStateM.Result.ok () (if on vm.config.trace then _ else vm) = _
    rw [if_pos hon]
  · refine ⟨(), vm, ?_, .refl hv, rfl⟩
    show EStateM.Result.ok () (if on vm.config.trace then _ else vm) = _
    rw [if_neg hon]

/-- Entering a module object in the table under its name. -/
theorem register_builds {name : String} {d : Module} (hv : vm.Regular)
    (hx : vm.heap.payload x = .ok (.module d)) (hd : d.name = name) {y : Option Ref} :
    Builds y vm (modify fun vm => { vm with modules := vm.modules.insert name x })
      fun vm' _ => vm'.heap = vm.heap := by
  refine ⟨(), { vm with modules := vm.modules.insert name x }, rfl,
    ⟨⟨hv.heap, ?_, hv.registered, hv.closures⟩, fun _ _ _ ho => ho, rfl, rfl⟩, rfl⟩
  intro other m hm
  by_cases hother : other = name
  · subst hother
    rw [NameMap.find?_insert_self] at hm
    cases hm
    exact ⟨d, hx, hd⟩
  · rw [NameMap.find?_insert_ne hother] at hm
    exact hv.modules other m hm

theorem importModule_builds {name : String} (hv : vm.Regular)
    (hname : (vm.registry.find? name).isSome = true) :
    Builds none vm (importModule name) fun vm' r =>
      ∃ d, vm'.heap.payload r = .ok (.module d) ∧ d.name = name := by
  unfold importModule
  apply Builds.get_bind
  cases hfound : vm.modules.find? name with
  | some m =>
    obtain ⟨d, hd, hdname⟩ := hv.modules name m hfound
    exact .return_ hv ⟨d, hd, hdname⟩
  | none =>
    apply Builds.get_bind
    obtain ⟨spec, hspec⟩ := Option.isSome_iff_exists.mp hname
    rw [hspec]
    have hfit : (Payload.module ⟨name, {}⟩).Fit vm.registry := by
      refine ⟨nofun, ?_, nofun⟩
      rintro d ⟨⟩
      exact hname
    refine (new_builds hv rfl hfit).fill (fun _ _ hnew => hnew.1) fun r vm₁ hgrow₁ hnew => ?_
    refine (register_builds hgrow₁.regular hnew.2 rfl).bind fun _ vm₂ hgrow₂ hheap => ?_
    have hr : vm₂.heap.payload r = .ok (.module ⟨name, {}⟩) := by rw [hheap, hnew.2]
    refine (importMembers_builds _ hgrow₂.regular hr).bind fun _ vm₃ hgrow₃ hmod => ?_
    obtain ⟨e, he, hename⟩ := hmod
    refine (trace_builds _ _ _ hgrow₃.regular).bind fun _ vm₄ hgrow₄ hheap => ?_
    exact .return_ hgrow₄.regular ⟨e, by rw [hheap, he], hename⟩

end Vm

/-! ### New tasks -/

theorem Heap.boot_compares {id : Nat} {config : Config} {p : Payload} {k : Builtin}
    (hk : Builtin.ofPayload? p = some k) : (Heap.boot id config).Compares (k.ref id) p := by
  have hobject : (boot id config).Lineage (Builtin.object.ref id) [Builtin.object.initial id] :=
    .root (cls_boot .object) rfl
  cases p with
  | object _ => cases hk
  | _ => cases hk; exact ⟨_, .step (cls_boot _) rfl hobject, rfl⟩

theorem Heap.boot_regular (id : Nat) (config : Config) : (Heap.boot id config).Regular where
  compares := by
    intro r o ho
    rcases boot_cases ho with ⟨k, -, rfl⟩ | ⟨-, rfl⟩ | ⟨b, -, rfl⟩
    · exact boot_compares rfl
    · exact boot_compares rfl
    · exact boot_compares rfl
  nil := by
    intro r hr
    obtain ⟨k, hg⟩ := payload_eq_ok_iff.mp hr
    rw [boot_id]
    rcases boot_cases hg with ⟨k, -, heq⟩ | ⟨rfl, -⟩ | ⟨b, -, heq⟩
    · cases heq
    · rfl
    · cases heq
  freeList := (boot_sound id config).freeList
  nesting := boot_nesting id config
  builtin := by
    intro p k hk
    rw [boot_id]
    exact boot_compares hk
  nilLive := by
    rw [boot_id]
    exact payload_eq_ok_iff.mpr ⟨_, get_boot_nil⟩
  boolLive := by
    intro b
    rw [boot_id]
    exact payload_eq_ok_iff.mpr ⟨_, get_boot_bool b⟩

namespace Vm

/-- The kinds of objects have classes in the heap. -/
theorem Regular.payload_builtin {vm : Vm} (hv : vm.Regular) {p : Payload} {k : Builtin}
    (hk : Builtin.ofPayload? p = some k) :
    ∃ c, vm.heap.payload (k.ref vm.heap.id) = .ok (.cls c) := by
  obtain ⟨cs, hlin, -⟩ := hv.heap.builtin p k hk
  obtain ⟨c, -, -, hc⟩ := hlin.head
  obtain ⟨x, hx⟩ := Heap.cls_eq_ok.mp hc
  exact ⟨c, Heap.payload_eq_ok_iff.mpr ⟨x, hx⟩⟩

/-- A native function in a regular state. -/
theorem Regular.placeNative {vm : Vm} (hv : vm.Regular) (name : String) (f : Native) :
    Vm.Regular { vm with
      heap := (vm.heap.placeBuiltin .method (.method { name := name, body := .native f })).2 } := by
  have hbody : (Body.native f).CapturesOnce := trivial
  obtain ⟨m, vm', hrun, hgrow, -⟩ := newMethod_builds name none hv hbody
  rw [newMethod, new_eq] at hrun
  cases hrun
  exact hgrow.regular

theorem Regular.bootMethod {vm : Vm} (hv : vm.Regular) {p : Payload} {k : Builtin}
    (hk : Builtin.ofPayload? p = some k) (name : String) (f : Native) :
    (vm.bootMethod k name f).Regular := by
  have hnative := hv.placeNative name f
  obtain ⟨c, hc⟩ := hnative.payload_builtin hk
  obtain ⟨⟨⟩, vm', hrun, hgrow, -⟩ := update_builds (f := Payload.addMethod name
    (vm.heap.placeBuiltin .method (.method { name := name, body := .native f })).1)
    hnative hc (.cls rfl rfl)
  cases hrun
  exact hgrow.regular

theorem Regular.withLog {vm : Vm} (hv : vm.Regular) (log : List String) :
    Vm.Regular { vm with log := log } :=
  ⟨hv.heap, hv.modules, hv.registered, hv.closures⟩

theorem Regular.foldl {α : Type} {f : Vm → α → Vm} (xs : List α)
    (hf : ∀ vm x, x ∈ xs → Regular vm → (f vm x).Regular) {vm : Vm} (hv : vm.Regular) :
    (xs.foldl f vm).Regular := by
  induction xs generalizing vm with
  | nil => exact hv
  | cons x xs ih =>
    exact ih (fun vm y hy => hf vm y (List.mem_cons_of_mem _ hy)) (hf vm x List.mem_cons_self hv)

/-- A new task is in a regular state. -/
theorem boot_regular (registry : Registry) (config : Config) (id : Nat) (task : TaskId) :
    (boot registry config id task).Regular := by
  have hstart : Vm.Regular
      { heap := Heap.boot id config
        task := task
        config := config
        registry := registry
        classes := ⟨Builtin.registered.map fun k => (k.name, k.ref id)⟩ } := by
    refine ⟨Heap.boot_regular id config, nofun, ?_, ?_⟩
    · intro r d hd
      obtain ⟨x, hg⟩ := Heap.payload_eq_ok_iff.mp hd
      rcases Heap.boot_cases hg with ⟨k, -, heq⟩ | ⟨-, heq⟩ | ⟨b, -, heq⟩ <;> cases heq
    · intro r m hm
      obtain ⟨x, hg⟩ := Heap.payload_eq_ok_iff.mp hm
      rcases Heap.boot_cases hg with ⟨k, -, heq⟩ | ⟨-, heq⟩ | ⟨b, -, heq⟩ <;> cases heq
  have hkind : ∀ k : Builtin, ∀ m ∈ k.methods, ∃ p, Builtin.ofPayload? p = some k := by
    intro k m hm
    cases k with
    | str => exact ⟨.str .empty, rfl⟩
    | array => exact ⟨.array #[], rfl⟩
    | hash => exact ⟨.hash {}, rfl⟩
    | task => exact ⟨.task ⟨⟨0, 0⟩, true⟩, rfl⟩
    | _ => cases hm
  have hmethods := hstart.foldl (f := fun vm k =>
      k.methods.foldl (fun vm (m : String × Native) => vm.bootMethod k m.1 m.2) vm)
    Builtin.all fun vm k _ hv => hv.foldl k.methods fun vm m hm hv => by
      obtain ⟨p, hp⟩ := hkind k m hm
      exact hv.bootMethod hp m.1 m.2
  have hglobals := hmethods.foldl (f := fun vm (g : String × Native) => vm.bootGlobal g.1 g.2)
    Native.globals fun vm g _ hv => by
      have hnative := hv.placeNative g.1 g.2
      exact ⟨hnative.heap, hnative.modules, hnative.registered, hnative.closures⟩
  unfold boot
  dsimp only
  split
  · exact hglobals.withLog _
  · exact hglobals

end Vm
end ObjectMachine
