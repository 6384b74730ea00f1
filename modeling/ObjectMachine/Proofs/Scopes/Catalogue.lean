import ObjectMachine.Proofs.Copying.Regular
import ObjectMachine.Proofs.Scopes.Bindings

/-!
# ObjectMachine.Proofs.Scopes.Catalogue

Module tables that list exactly the modules that are there.

* `Heap.ModuleNamed` — an object is a module of a name.
* `Vm.Catalogued` — the entry of a name is the module of that name, and there is no other one.
* `Vm.Catalogued.place`, `Vm.Catalogued.update`, `Vm.Catalogued.enter` — new objects, other
  contents, and a new module that is entered under its name.
-/

namespace ObjectMachine

def Payload.moduleName? : Payload → Option String
  | .module m => some m.name
  | _ => none

/-- The name of the module of a body on its way to another task. -/
def PackedBody.module? : PackedBody → Option String
  | .native _ => none
  | .bytecode _ module => module
  | .closure _ module _ => module

/-- A module keeps its name. -/
theorem Payload.Becomes.moduleName {A : Prop} {p q : Payload} (h : p.Becomes A q) :
    q.moduleName? = p.moduleName? := by
  cases h with
  | module hname _ => exact congrArg some hname
  | _ => rfl

theorem Payload.moduleName_addLocal (name : String) (x : Ref) (p : Payload) :
    (p.addLocal name x).moduleName? = p.moduleName? := by
  cases p <;> rfl

namespace Heap

variable {h h' : Heap} {name : String} {r x : Ref}

/-- An object is a module of the name. -/
def ModuleNamed (h : Heap) (name : String) (r : Ref) : Prop :=
  ∃ p, h.payload r = .ok p ∧ p.moduleName? = some name

theorem ModuleNamed.contains (hr : h.ModuleNamed name r) : h.contains r = true := by
  obtain ⟨p, hp, -⟩ := hr
  exact contains_of_payload hp

theorem ModuleNamed.unique {other : String} (hr : h.ModuleNamed name r)
    (hr' : h.ModuleNamed other r) : name = other := by
  obtain ⟨p, hp, hname⟩ := hr
  obtain ⟨q, hq, hother⟩ := hr'
  rw [hp] at hq
  cases hq
  exact Option.some.inj (hname.symm.trans hother)

theorem isModule_iff : h.IsModule r ↔ ∃ name, h.ModuleNamed name r := by
  constructor
  · rintro ⟨m, hm⟩
    exact ⟨m.name, _, hm, rfl⟩
  · rintro ⟨name, p, hp, hname⟩
    cases p with
    | module m => exact ⟨m, hp⟩
    | _ => cases hname

theorem Evolves.moduleNamed {A : Ref → Prop} (he : h.Evolves A h') (hr : h.ModuleNamed name r) :
    h'.ModuleNamed name r := by
  obtain ⟨p, hp, hname⟩ := hr
  obtain ⟨q, hq, hpq⟩ := he.payload hp
  exact ⟨q, hq, hpq.moduleName.trans hname⟩

/-- A new object that is no module. -/
theorem moduleNamed_place (hf : h.FreeList) {o : Obj} (ho : o.payload.moduleName? = none) :
    (h.place o).2.ModuleNamed name r ↔ h.ModuleNamed name r := by
  constructor
  · rintro ⟨p, hp, hname⟩
    rcases payload_place_cases hf hp with ⟨-, rfl⟩ | hold
    · rw [ho] at hname
      cases hname
    · exact ⟨p, hold, hname⟩
  · rintro ⟨p, hp, hname⟩
    exact ⟨p, payload_place_of_payload hf o hp, hname⟩

/-- Other contents that do not change the names of modules. -/
theorem moduleNamed_update {f : Payload → Payload}
    (hname : ∀ p : Payload, (f p).moduleName? = p.moduleName?) :
    (h.update x f).ModuleNamed name r ↔ h.ModuleNamed name r := by
  constructor
  · rintro ⟨q, hq, hq'⟩
    obtain ⟨p, hp, rfl | rfl⟩ := payload_update_cases hq
    · exact ⟨q, hp, hq'⟩
    · exact ⟨p, hp, (hname p).symm.trans hq'⟩
  · rintro ⟨p, hp, hp'⟩
    obtain ⟨q, hq, rfl | rfl⟩ := payload_update_kept x f hp
    · exact ⟨q, hq, hp'⟩
    · exact ⟨f p, hq, (hname p).trans hp'⟩

end Heap

/-- The entry of a name in the module table is the module of that name: entries are modules of
their names, and every module is the entry of its name. -/
def Vm.Catalogued (v : Vm) : Prop :=
  ∀ name r, v.modules.find? name = some r ↔ v.heap.ModuleNamed name r

namespace Vm.Catalogued

variable {v : Vm} {name : String}

theorem place (h : v.Catalogued) (hf : v.heap.FreeList) (k : Ref) {p : Payload}
    (hp : p.moduleName? = none) :
    Vm.Catalogued { v with heap := (v.heap.place ⟨k, p⟩).2 } :=
  fun name r => (h name r).trans (Heap.moduleNamed_place hf hp).symm

theorem update (h : v.Catalogued) (x : Ref) {f : Payload → Payload}
    (hname : ∀ p : Payload, (f p).moduleName? = p.moduleName?) :
    Vm.Catalogued { v with heap := v.heap.update x f } :=
  fun name r => (h name r).trans (Heap.moduleNamed_update hname).symm

/-- A new module of a name that has no entry is entered. -/
theorem enter (h : v.Catalogued) (hf : v.heap.FreeList) (k : Ref)
    (hname : v.modules.find? name = none) :
    Vm.Catalogued { v with
      heap := (v.heap.place ⟨k, .module ⟨name, {}⟩⟩).2
      modules := v.modules.insert name (v.heap.place ⟨k, .module ⟨name, {}⟩⟩).1 } := by
  intro other r
  have hself := Heap.payload_place_self hf ⟨k, .module ⟨name, {}⟩⟩
  constructor
  · intro hfound
    by_cases hother : other = name
    · subst hother
      have hsome : some _ = some r := (NameMap.find?_insert_self _ _ _).symm.trans hfound
      obtain rfl := Option.some.inj hsome
      exact ⟨_, hself, rfl⟩
    · obtain ⟨p, hp, hp'⟩ := (h other r).mp ((NameMap.find?_insert_ne hother).symm.trans hfound)
      exact ⟨p, Heap.payload_place_of_payload hf _ hp, hp'⟩
  · rintro ⟨p, hp, hp'⟩
    rcases Heap.payload_place_cases hf hp with ⟨rfl, rfl⟩ | hold
    · obtain rfl : name = other := Option.some.inj hp'
      exact NameMap.find?_insert_self _ _ _
    · have hfound := (h other r).mpr ⟨p, hold, hp'⟩
      have hother : other ≠ name := by
        rintro rfl
        rw [hname] at hfound
        cases hfound
      exact (NameMap.find?_insert_ne hother).trans hfound

end Vm.Catalogued

end ObjectMachine
