import ObjectMachine.Proofs.Renaming.Actions

/-!
# ObjectMachine.Proofs.Renaming.Boot

New tasks are the same up to the names of objects, and sound.

* `Heap.boot_sound` — the built-in classes and singletons hold nothing but each other.
* `Vm.boot_twins` — two new tasks whose settings differ at most in what the collector goes by.
-/

namespace ObjectMachine

namespace Builtin

/-- The first cells hold the classes, and the next three the singletons. -/
theorem cell_cases {c : Nat} (hc : c < 19) :
    (∃ k : Builtin, k.cell = c) ∨ c = 16 ∨ c = 17 ∨ c = 18 := by
  have hall : ∀ c : Fin 16, (all.get c).cell = c := by decide
  by_cases hlt : c < 16
  · exact .inl ⟨all.get ⟨c, hlt⟩, hall ⟨c, hlt⟩⟩
  · omega

/-- The super class is all that a new class holds. -/
theorem mem_refs_initial {k : Builtin} {id : Nat} {s : Ref}
    (hs : s ∈ (Payload.cls (k.initial id)).refs) : s = object.ref id := by
  cases k <;>
    simp [Payload.refs, Payload.markFn?, MarkFn.targets, initial, super,
      NameMap.values] at hs <;> exact hs

end Builtin

namespace Heap

variable {id : Nat} {config : Config} {r : Ref} {o : Obj}

/-- Objects that are put in a heap without free cells stand behind the others. -/
theorem placeAll (os : List Obj) {h : Heap} (hf : h.free = []) :
    os.foldl (fun h o => (h.place o).2) h =
      { h with
        cells := h.cells ++ (os.map fun o => { obj := some o }).toArray
        live := h.live + os.length
        allocated := h.allocated + os.length } := by
  induction os generalizing h with
  | nil => simp
  | cons o os ih =>
    let h₁ : Heap :=
      { h with
        cells := h.cells.push { obj := some o }
        live := h.live + 1
        allocated := h.allocated + 1 }
    have hplace : (h.place o).2 = h₁ := by
      simp only [place, hf, h₁]
    rw [List.foldl_cons, hplace, ih (h := h₁) hf]
    dsimp only [h₁]
    congr 1
    · simp
    · rw [List.length_cons]
      omega
    · rw [List.length_cons]
      omega

theorem boot_eq (id : Nat) (config : Config) :
    boot id config =
      { empty id config with
        cells := ((bootObjects id).map fun o => { obj := some o }).toArray
        roots := permanentRoots id
        live := 19
        allocated := 19 } := by
  unfold boot
  rw [placeAll _ rfl]
  simp [empty, bootObjects, Builtin.all]

@[simp] theorem boot_id (id : Nat) (config : Config) : (boot id config).id = id := by
  rw [boot_eq]; rfl

@[simp] theorem boot_nesting (id : Nat) (config : Config) : (boot id config).nesting = 0 := by
  rw [boot_eq]; rfl

theorem get_boot : (boot id config).get r = .ok o ↔
    r.heap = id ∧ r.generation = 0 ∧ (bootObjects id)[r.cell]? = some o := by
  rw [get_eq_ok, boot_eq]
  simp only [List.getElem?_toArray, List.getElem?_map, Option.map_eq_some_iff]
  constructor
  · rintro ⟨hid, _, ⟨o', ho, rfl⟩, hgen, hobj⟩
    exact ⟨hid, hgen.symm, ho.trans hobj⟩
  · rintro ⟨hid, hgen, ho⟩
    exact ⟨hid, _, ⟨o, ho, rfl⟩, hgen.symm, rfl⟩

theorem get_boot_builtin (k : Builtin) :
    (boot id config).get (k.ref id) = .ok ⟨Builtin.cls.ref id, .cls (k.initial id)⟩ :=
  get_boot.mpr ⟨rfl, rfl, by cases k <;> rfl⟩

theorem get_boot_nil : (boot id config).get (nilRef id) = .ok ⟨Builtin.nil.ref id, .nil⟩ :=
  get_boot.mpr ⟨rfl, rfl, rfl⟩

theorem get_boot_bool (b : Bool) :
    (boot id config).get (boolRef id b) = .ok ⟨Builtin.bool.ref id, .bool b⟩ :=
  get_boot.mpr ⟨rfl, rfl, by cases b <;> rfl⟩

/-- What a new heap holds. -/
theorem boot_cases (hr : (boot id config).get r = .ok o) :
    (∃ k : Builtin, r = k.ref id ∧ o = ⟨Builtin.cls.ref id, .cls (k.initial id)⟩) ∨
    (r = nilRef id ∧ o = ⟨Builtin.nil.ref id, .nil⟩) ∨
    ∃ b, r = boolRef id b ∧ o = ⟨Builtin.bool.ref id, .bool b⟩ := by
  obtain ⟨hid, hgen, ho⟩ := get_boot.mp hr
  obtain ⟨heap, cell, gen⟩ := r
  obtain rfl : heap = id := hid
  obtain rfl : gen = 0 := hgen
  have hlt : cell < 19 := (List.getElem?_eq_some_iff.mp ho).1
  rcases Builtin.cell_cases hlt with ⟨k, rfl⟩ | rfl | rfl | rfl
  · exact .inl ⟨k, rfl, Except.ok.inj (hr.symm.trans (get_boot_builtin k))⟩
  · exact .inr (.inl ⟨rfl, Except.ok.inj (hr.symm.trans get_boot_nil)⟩)
  · exact .inr (.inr ⟨true, rfl, Except.ok.inj (hr.symm.trans (get_boot_bool true))⟩)
  · exact .inr (.inr ⟨false, rfl, Except.ok.inj (hr.symm.trans (get_boot_bool false))⟩)

theorem cls_boot (k : Builtin) : (boot id config).cls (k.ref id) = .ok (k.initial id) :=
  cls_eq_ok.mpr ⟨_, get_boot_builtin k⟩

/-- A class of a new heap is a built-in one. -/
theorem boot_cls_cases {c : Class} (hc : (boot id config).cls r = .ok c) :
    ∃ k : Builtin, r = k.ref id ∧ c = k.initial id := by
  obtain ⟨x, hg⟩ := cls_eq_ok.mp hc
  rcases boot_cases hg with ⟨k, rfl, heq⟩ | ⟨-, heq⟩ | ⟨b, -, heq⟩
  · cases heq
    exact ⟨k, rfl, rfl⟩
  · cases heq
  · cases heq

theorem boot_lineage (k : Builtin) :
    ∃ cs, (boot id config).Lineage (k.ref id) (k.initial id :: cs) := by
  have hobject : (boot id config).Lineage (Builtin.object.ref id) [Builtin.object.initial id] :=
    .root (cls_boot .object) rfl
  cases k with
  | object => exact ⟨[], hobject⟩
  | _ => exact ⟨_, .step (cls_boot _) rfl hobject⟩

theorem boot_builtin_live (k : Builtin) : (boot id config).contains (k.ref id) = true :=
  contains_of_get (get_boot_builtin k)

theorem boot_root_live (hr : r ∈ permanentRoots id) : (boot id config).contains r = true := by
  simp only [permanentRoots, List.mem_cons, List.mem_reverse, List.mem_map] at hr
  rcases hr with rfl | rfl | rfl | ⟨k, -, rfl⟩
  · exact contains_of_get (get_boot_bool false)
  · exact contains_of_get (get_boot_bool true)
  · exact contains_of_get get_boot_nil
  · exact boot_builtin_live k

/-- A built-in class traces what it says it does. -/
theorem boot_traces (k : Builtin) {p : Payload}
    (hp : ∀ f, p.markFn? = some f → k.slots.mark = some f) :
    (boot id config).Traces (k.ref id) p := by
  obtain ⟨cs, hl⟩ := boot_lineage k
  exact ⟨_, hl, fun f hf => ⟨_, List.mem_cons_self, hp f hf⟩⟩

theorem boot_sound (id : Nat) (config : Config) : (boot id config).Sound := by
  refine ⟨?_, ?_, ?_, ?_, ?_, ?_, ?_, ?_⟩
  · intro r o ho
    rcases boot_cases ho with ⟨k, -, rfl⟩ | ⟨-, rfl⟩ | ⟨b, -, rfl⟩
    · refine ⟨boot_builtin_live .cls, fun s hs => ?_⟩
      rw [Builtin.mem_refs_initial hs]
      exact boot_builtin_live .object
    · exact ⟨boot_builtin_live .nil, nofun⟩
    · exact ⟨boot_builtin_live .bool, nofun⟩
  · intro r o ho
    rcases boot_cases ho with ⟨k, -, rfl⟩ | ⟨-, rfl⟩ | ⟨b, -, rfl⟩
    · exact boot_traces .cls fun _ hf => hf
    · exact boot_traces .nil nofun
    · exact boot_traces .bool nofun
  · intro r c hc
    obtain ⟨k, rfl, -⟩ := boot_cls_cases hc
    obtain ⟨cs, hl⟩ := boot_lineage k
    exact ⟨_, hl⟩
  · intro r c hc
    obtain ⟨k, -, rfl⟩ := boot_cls_cases hc
    exact .inl ⟨k, rfl⟩
  · intro k
    rw [boot_id]
    exact ⟨_, cls_boot k, rfl⟩
  · rw [boot_eq]
    exact ⟨nofun, .nil⟩
  · exact fun r hr => boot_root_live hr
  · rw [boot_id]
    exact fun r hr => hr

/-! ## Two new heaps -/

/-- Objects of two new heaps that stand in cells with the same number. -/
def sameCell (id id' : Nat) : Renaming :=
  fun a b => ∃ c < 19, a = ⟨id, c, 0⟩ ∧ b = ⟨id', c, 0⟩

theorem sameCell_builtin (id id' : Nat) (k : Builtin) :
    sameCell id id' (k.ref id) (k.ref id') :=
  ⟨k.cell, by cases k <;> decide, rfl, rfl⟩

theorem initial_related (id id' : Nat) (k : Builtin) :
    (k.initial id).Related (sameCell id id') (k.initial id') := by
  refine ⟨rfl, ?_, rfl, rfl, .empty⟩
  cases k with
  | object => exact .none
  | _ => exact .some (sameCell_builtin id id' .object)

theorem boot_related (id id' : Nat) (config config' : Config) :
    (boot id config).Related (sameCell id id') (boot id' config') := by
  refine { unique := ⟨?_, ?_⟩, objects := ?_, builtin := ?_, nil := ?_, bool := ?_
           left := boot_sound id config, right := boot_sound id' config', nesting := ?_ }
  · rintro _ _ _ ⟨c, -, rfl, rfl⟩ ⟨d, -, rfl, hd⟩
    cases hd
    rfl
  · rintro _ _ _ ⟨c, -, rfl, rfl⟩ ⟨d, -, hd, rfl⟩
    cases hd
    rfl
  · rintro _ _ ⟨c, hc, rfl, rfl⟩
    rcases Builtin.cell_cases hc with ⟨k, rfl⟩ | rfl | rfl | rfl
    · exact ⟨_, _, get_boot_builtin k, get_boot_builtin k, sameCell_builtin id id' .cls,
        .cls (initial_related id id' k)⟩
    · exact ⟨_, _, get_boot_nil, get_boot_nil, sameCell_builtin id id' .nil, .nil⟩
    · exact ⟨_, _, get_boot_bool true, get_boot_bool true, sameCell_builtin id id' .bool, .bool true⟩
    · exact ⟨_, _, get_boot_bool false, get_boot_bool false, sameCell_builtin id id' .bool,
        .bool false⟩
  · intro k
    rw [boot_id, boot_id]
    exact sameCell_builtin id id' k
  · rw [boot_id, boot_id]
    exact ⟨16, by decide, rfl, rfl⟩
  · intro b
    rw [boot_id, boot_id]
    exact ⟨_, by cases b <;> decide, rfl, rfl⟩
  · rw [boot_nesting, boot_nesting]

end Heap

namespace Vm

variable {ρ : Renaming} {v w : Vm}

/-- The same up to some renaming. -/
def Twins (v w : Vm) : Prop :=
  ∃ ρ, v.Related ρ w

theorem Twins.foldl {α : Type} {f : Vm → α → Vm}
    (hf : ∀ v w x, v.Twins w → (f v x).Twins (f w x)) (xs : List α) (h : v.Twins w) :
    (xs.foldl f v).Twins (xs.foldl f w) := by
  induction xs generalizing v w with
  | nil => exact h
  | cons x xs ih => exact ih (hf v w x h)

/-- A native function in both heaps. -/
theorem Related.placeNative (h : v.Related ρ w) (name : String) (f : Native) :
    ∃ σ m n hv hw, ρ ≤ σ ∧ σ m n ∧ hv.Related σ hw ∧
      v.heap.placeBuiltin .method (.method { name := name, body := .native f }) = (m, hv) ∧
      w.heap.placeBuiltin .method (.method { name := name, body := .native f }) = (n, hw) := by
  have hp : Payload.Related ρ (.method { name := name, body := .native f })
      (.method { name := name, body := .native f }) := .method ⟨rfl, .native f, .none⟩
  have ha : v.heap.Admits (Builtin.method.ref v.heap.id)
      (.method { name := name, body := .native f }) := by
    refine h.heap.left.admits_builtin rfl ?_ ?_
    · rintro s ⟨⟩
    · rintro c ⟨⟩
  have hplace := h.heap.place (h.heap.builtin .method) hp ha
  exact ⟨_, _, _, _, _, Heap.le_extend _ _ _, .inr ⟨rfl, rfl⟩, hplace, rfl, rfl⟩

theorem Twins.bootMethod (h : v.Twins w) (k : Builtin) (name : String) (f : Native) :
    (v.bootMethod k name f).Twins (w.bootMethod k name f) := by
  obtain ⟨ρ, h⟩ := h
  obtain ⟨σ, m, n, hv, hw, hσ, hmn, hheap, hv', hw'⟩ := h.placeNative name f
  unfold Vm.bootMethod
  rw [hv', hw']
  refine ⟨σ, h.withHeap hσ (hheap.update (hheap.builtin k) (Payload.mild_addMethod _ _)
    (Payload.mild_addMethod _ _) fun p q hpq => ?_)⟩
  cases hpq with
  | cls hcd => exact .cls { hcd with methods := hcd.methods.insert name hmn }
  | _ => constructor <;> assumption

theorem Twins.bootGlobal (h : v.Twins w) (name : String) (f : Native) :
    (v.bootGlobal name f).Twins (w.bootGlobal name f) := by
  obtain ⟨ρ, h⟩ := h
  obtain ⟨σ, m, n, hv, hw, hσ, hmn, hheap, hv', hw'⟩ := h.placeNative name f
  unfold Vm.bootGlobal
  rw [hv', hw']
  exact ⟨σ, { h.withHeap hσ hheap with globals := (h.globals.mono hσ).insert name hmn }⟩

/-- Two new tasks are the same up to the names of objects. -/
theorem boot_twins (registry : Registry) {config config' : Config} (hc : config.Alike config')
    (id id' : Nat) (task : TaskId) :
    (boot registry config id task).Twins (boot registry config' id' task) := by
  let start (id : Nat) (config : Config) : Vm :=
    { heap := Heap.boot id config
      task := task
      config := config
      registry := registry
      classes := ⟨Builtin.registered.map fun k => (k.name, k.ref id)⟩ }
  have hstart : (start id config).Related (Heap.sameCell id id') (start id' config') := by
    refine { heap := Heap.boot_related id id' config config', task := rfl, config := hc
             registry := rfl, stack := .nil, frames := .nil, temps := .nil, classes := ?_
             globals := .empty, modules := .empty, loops := rfl, output := rfl }
    refine List.rel_map (fun k k' hk => ?_) (List.forall₂_same.mpr fun k _ => rfl)
    obtain rfl : k = k' := hk
    exact ⟨rfl, Heap.sameCell_builtin id id' k⟩
  have htwins : (start id config).Twins (start id' config') := ⟨_, hstart⟩
  have hmethods := htwins.foldl (f := fun vm k =>
      k.methods.foldl (fun vm (m : String × Native) => vm.bootMethod k m.1 m.2) vm)
    (fun v w k hvw => hvw.foldl (fun v w m h => h.bootMethod k m.1 m.2) k.methods) Builtin.all
  obtain ⟨ρ, hvw⟩ := hmethods.foldl (f := fun vm (g : String × Native) => vm.bootGlobal g.1 g.2)
    (fun v w g h => h.bootGlobal g.1 g.2) Native.globals
  unfold boot
  rw [hc.trace]
  dsimp only
  split
  · exact ⟨ρ, hvw.withLog _ _⟩
  · exact ⟨ρ, hvw⟩

end Vm
end ObjectMachine
