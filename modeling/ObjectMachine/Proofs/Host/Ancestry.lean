import ObjectMachine.Proofs.Host.Liveness

/-!
# ObjectMachine.Proofs.Host.Ancestry

The chains of super classes are finite, and so the subclass relation is a partial order.

`Ascent h r path` lists the class objects from `r` upwards together with the classes they hold. A
class object comes once in its ascent, so a walk that may visit as many classes as there are cells
is never cut short: a walk without any bound would give the same answer.

* `Heap.Ascent` — the way from a class up to a class without super class.
* `Heap.Ascent.nodup` — no class object is met twice.
* `Heap.Walked` — what the five walks along a chain give, however far they may go.
* `Heap.Ascent.trans`, `Heap.Ascent.antisymm` — ancestry is a partial order.
* `Heap.findInChain_eq` — a look-up asks the class itself and then its super class.
* `Session.class_chains_grounded` — all of it in every state of a task.
-/

namespace ObjectMachine
namespace Heap

/-- The class objects from `r` upwards and their classes, up to one without super class. -/
inductive Ascent (h : Heap) : Ref → List (Ref × Class) → Prop where
  | root {r : Ref} {c : Class} : h.cls r = .ok c → c.super = none → Ascent h r [(r, c)]
  | step {r s : Ref} {c : Class} {path : List (Ref × Class)} :
      h.cls r = .ok c → c.super = some s → Ascent h s path → Ascent h r ((r, c) :: path)

theorem Lineage.ascent {h : Heap} {r : Ref} {cs : List Class} (hl : h.Lineage r cs) :
    ∃ path, h.Ascent r path ∧ path.map Prod.snd = cs := by
  induction hl with
  | root hc hs => exact ⟨_, .root hc hs, rfl⟩
  | step hc hs _ ih =>
    obtain ⟨path, hpath, hmap⟩ := ih
    exact ⟨_, .step hc hs hpath, by simp [hmap]⟩

namespace Ascent

variable {h : Heap} {r : Ref} {path : List (Ref × Class)}

theorem lineage (ha : h.Ascent r path) : h.Lineage r (path.map Prod.snd) := by
  induction ha with
  | root hc hs => exact .root hc hs
  | step hc hs _ ih => exact .step hc hs ih

theorem head (ha : h.Ascent r path) : ∃ c rest, path = (r, c) :: rest ∧ h.cls r = .ok c := by
  cases ha with
  | root hc _ => exact ⟨_, _, rfl, hc⟩
  | step hc _ _ => exact ⟨_, _, rfl, hc⟩

theorem self_mem (ha : h.Ascent r path) : r ∈ path.map Prod.fst := by
  obtain ⟨c, rest, rfl, -⟩ := ha.head
  exact List.mem_cons_self

theorem unique {path' : List (Ref × Class)} (ha : h.Ascent r path) (hb : h.Ascent r path') :
    path = path' := by
  induction ha generalizing path' with
  | root hc hs =>
    cases hb with
    | root hc' _ => rw [hc] at hc'; cases hc'; rfl
    | step hc' hs' _ => rw [hc] at hc'; cases hc'; rw [hs] at hs'; cases hs'
  | step hc hs _ ih =>
    cases hb with
    | root hc' hs' => rw [hc] at hc'; cases hc'; rw [hs] at hs'; cases hs'
    | step hc' hs' hb =>
      rw [hc] at hc'; cases hc'
      rw [hs] at hs'; cases hs'
      rw [ih hb]

/-- The ascent of an ancestor is the rest of the way. -/
theorem suffix (ha : h.Ascent r path) {a : Ref} (hmem : a ∈ path.map Prod.fst) :
    ∃ above, h.Ascent a above ∧ above <:+ path := by
  induction ha with
  | @root r c hc hs =>
    obtain rfl : a = r := by simpa using hmem
    exact ⟨_, .root hc hs, List.suffix_refl _⟩
  | @step r s c path hc hs hpath ih =>
    rw [List.map_cons] at hmem
    rcases List.mem_cons.mp hmem with rfl | hmem
    · exact ⟨_, .step hc hs hpath, List.suffix_refl _⟩
    · obtain ⟨above, habove, hsuffix⟩ := ih hmem
      exact ⟨above, habove, hsuffix.trans (List.suffix_cons _ _)⟩

/-- A class that came twice would have a way shorter than itself. -/
theorem nodup (ha : h.Ascent r path) : (path.map Prod.fst).Nodup := by
  induction ha with
  | root => exact List.nodup_singleton _
  | @step r s c path hc hs hpath ih =>
    rw [List.map_cons, List.nodup_cons]
    refine ⟨fun hmem => ?_, ih⟩
    obtain ⟨above, habove, hsuffix⟩ := hpath.suffix hmem
    have hself : h.Ascent r ((r, c) :: path) := .step hc hs hpath
    have hlen := hsuffix.length_le
    rw [habove.unique hself, List.length_cons] at hlen
    exact Nat.not_succ_le_self _ hlen

theorem length_le (ha : h.Ascent r path) : path.length ≤ h.cells.size := by
  simpa using ha.lineage.length_le

/-! ## Ancestry as an order -/

theorem trans (ha : h.Ascent r path) {a b : Ref} {above : List (Ref × Class)}
    (hra : a ∈ path.map Prod.fst) (haa : h.Ascent a above) (hab : b ∈ above.map Prod.fst) :
    b ∈ path.map Prod.fst := by
  obtain ⟨rest, hrest, hsuffix⟩ := ha.suffix hra
  rw [haa.unique hrest] at hab
  exact (hsuffix.map Prod.fst).subset hab

theorem antisymm (ha : h.Ascent r path) {a : Ref} {above : List (Ref × Class)}
    (haa : h.Ascent a above) (hra : a ∈ path.map Prod.fst) (har : r ∈ above.map Prod.fst) :
    r = a := by
  obtain ⟨rest, hrest, hup⟩ := ha.suffix hra
  obtain ⟨rest', hrest', hdown⟩ := haa.suffix har
  rw [← haa.unique hrest] at hup
  rw [← ha.unique hrest'] at hdown
  -- each way is the end of the other, so they are one
  have hsame : above = path := hup.eq_of_length (Nat.le_antisymm hup.length_le hdown.length_le)
  obtain ⟨c, tail, rfl, -⟩ := ha.head
  obtain ⟨d, tail', rfl, -⟩ := haa.head
  cases hsame
  rfl

/-! ## The walks -/

theorem reaches (ha : h.Ascent r path) (a : Ref) :
    ∀ fuel, path.length ≤ fuel → h.reaches a fuel r = .ok (decide (a ∈ path.map Prod.fst)) := by
  induction ha with
  | @root r c hc hs =>
    intro fuel hfuel
    cases fuel with
    | zero => simp at hfuel
    | succ fuel =>
      by_cases hra : r = a
      · simp [Heap.reaches, hra]
      · simp [Heap.reaches, hra, hc, hs, Ne.symm hra]
  | @step r s c path hc hs _ ih =>
    intro fuel hfuel
    cases fuel with
    | zero => simp at hfuel
    | succ fuel =>
      have hle : path.length ≤ fuel := Nat.le_of_succ_le_succ hfuel
      by_cases hra : r = a
      · simp [Heap.reaches, hra]
      · rw [Heap.reaches, if_neg hra, hc]
        simp [hs, ih fuel hle, Ne.symm hra]

theorem isSubclass (ha : h.Ascent r path) (a : Ref) :
    h.isSubclass r a = .ok (decide (a ∈ path.map Prod.fst)) :=
  ha.reaches a _ (Nat.le_succ_of_le ha.length_le)

theorem mem_of_isSubclass (ha : h.Ascent r path) {a : Ref} (hsub : h.isSubclass r a = .ok true) :
    a ∈ path.map Prod.fst := by
  rw [ha.isSubclass a] at hsub
  exact of_decide_eq_true (Except.ok.inj hsub)

theorem dtorsFrom (ha : h.Ascent r path) (fuel : Nat) (hfuel : path.length ≤ fuel) :
    h.dtorsFrom fuel r = path.flatMap fun e => e.2.slots.dtor.toList := by
  have hc : h.Chain (fun _ => False) r (path.map Prod.snd) := ha.lineage.chain
  rw [hc.dtorsFrom fuel (by simpa using hfuel), List.flatMap_map]

/-- Classes that are there in another heap too have the same chain there. -/
theorem mono {h' : Heap} (ha : h.Ascent r path)
    (hkeep : ∀ x c, h.cls x = .ok c → h'.cls x = .ok c) : h'.Ascent r path := by
  induction ha with
  | root hc hs => exact .root (hkeep _ _ hc) hs
  | step hc hs _ ih => exact .step (hkeep _ _ hc) hs ih

end Ascent

/-- While the finalizers of a sweep run, every class is still what it was. -/
theorem cls_foldl_finalize (dead : List Nat) {h : Heap} {r : Ref} {c : Class}
    (hc : h.cls r = .ok c) : (dead.foldl finalize h).cls r = .ok c := by
  rw [← finalizeBy_finalizers]
  exact foldl_finalizeBy_keeps (P := fun k => k.cls r = .ok c)
    (fun i _ _ f => cls_runOn DtorFn.finalizers_leaveClasses i f) hc

/-- What the walks from a class give that may visit all classes of its chain, or more: all of
them see the whole chain. Finalizers are gathered in the midst of a sweep, when others ran. -/
structure Walked (h : Heap) (r : Ref) (path : List (Ref × Class)) : Prop where
  slot : ∀ {α : Type} (pick : Slots → Option α) (bound : Nat), path.length ≤ bound →
    h.findFrom (fun c => pick c.slots) bound r = .ok (path.findSome? fun e => pick e.2.slots)
  method : ∀ (name : String) (bound : Nat), path.length ≤ bound →
    h.findFrom (fun c => c.methods.find? name) bound r =
      .ok (path.findSome? fun e => e.2.methods.find? name)
  subclass : ∀ (a : Ref) (bound : Nat), path.length ≤ bound →
    h.reaches a bound r = .ok (decide (a ∈ path.map Prod.fst))
  marks : ∀ bound : Nat, path.length ≤ bound →
    h.markFnsFrom bound r = .ok (path.flatMap fun e => e.2.slots.mark.toList)
  dtors : ∀ (done : List Nat) (bound : Nat), path.length ≤ bound →
    (done.foldl finalize h).dtorsFrom bound r = path.flatMap fun e => e.2.slots.dtor.toList

theorem Ascent.walked {h : Heap} {r : Ref} {path : List (Ref × Class)} (ha : h.Ascent r path) :
    h.Walked r path := by
  have hlength : (path.map Prod.snd).length = path.length := List.length_map _
  refine ⟨?_, ?_, ha.reaches, ?_, ?_⟩
  · intro α pick bound hbound
    rw [ha.lineage.findFrom bound (by omega), List.findSome?_map]
    rfl
  · intro name bound hbound
    rw [ha.lineage.findFrom bound (by omega), List.findSome?_map]
    rfl
  · intro bound hbound
    rw [ha.lineage.markFnsFrom bound (by omega), List.flatMap_map]
  · intro done bound hbound
    exact (ha.mono fun x c => cls_foldl_finalize done).dtorsFrom bound hbound

/-! ## Inheritance -/

/-- What a class has itself, or else what is found above its super class. -/
def orSuper {α : Type} (c : Class) (own : Option α) (above : Ref → Except Fatal (Option α)) :
    Except Fatal (Option α) :=
  match own, c.super with
  | some a, _ => .ok (some a)
  | none, some s => above s
  | none, none => .ok none

theorem findInChain_eq {h : Heap} {α : Type} (pick : Class → Option α) {r : Ref} {c : Class}
    {path : List (Ref × Class)} (hc : h.cls r = .ok c) (ha : h.Ascent r path) :
    h.findInChain pick r = orSuper c (pick c) (h.findInChain pick) := by
  rw [ha.lineage.findInChain]
  cases ha with
  | root hc' hs =>
    rw [hc] at hc'; cases hc'
    cases hp : pick c <;> simp [orSuper, hs, hp]
  | step hc' hs hpath =>
    rw [hc] at hc'; cases hc'
    cases hp : pick c <;> simp [orSuper, hs, hp, hpath.lineage.findInChain]

end Heap

/-- In every state of a task that was new once, the way up from a live class is finite and meets
no class twice. So the walks along it end, whatever they may visit at most; ancestry is a partial
order of the live classes; and a slot or method is the class's own or else that of its super
class. -/
theorem Session.class_chains_grounded (registry : Registry) (config : Config) (heap : Nat)
    (task : TaskId) {s : Session} (hs : (Session.boot registry config heap task).Reaches s) :
    ∀ r c, s.vm.heap.cls r = .ok c →
      (∃ path, s.vm.heap.Ascent r path ∧ (path.map Prod.fst).Nodup ∧
        path.length ≤ s.vm.heap.cells.size ∧ s.vm.heap.Walked r path) ∧
      (∀ a, ∃ answer, s.vm.heap.isSubclass r a = .ok answer) ∧
      s.vm.heap.isSubclass r r = .ok true ∧
      (∀ a b, s.vm.heap.isSubclass r a = .ok true → s.vm.heap.isSubclass a b = .ok true →
        s.vm.heap.isSubclass r b = .ok true) ∧
      (∀ a, s.vm.heap.isSubclass r a = .ok true → s.vm.heap.isSubclass a r = .ok true → r = a) ∧
      (∀ {α : Type} (pick : Slots → Option α),
        s.vm.heap.findSlot pick r = Heap.orSuper c (pick c.slots) (s.vm.heap.findSlot pick)) ∧
      ∀ name, s.vm.heap.lookupMethod r name =
        Heap.orSuper c (c.methods.find? name) (s.vm.heap.lookupMethod · name) := by
  intro r c hc
  have hsound := ((Session.boot_live registry config heap task).reaches hs).vm_live.heap
  obtain ⟨cs, hl⟩ := hsound.lineage r c hc
  obtain ⟨path, ha, -⟩ := hl.ascent
  refine ⟨⟨path, ha, ha.nodup, ha.length_le, ha.walked⟩, fun a => ⟨_, ha.isSubclass a⟩, ?_, ?_, ?_,
    fun pick => Heap.findInChain_eq _ hc ha, fun name => Heap.findInChain_eq _ hc ha⟩
  · simp only [ha.isSubclass, ha.self_mem, decide_true]
  · intro a b hra hab
    obtain ⟨above, haa, -⟩ := ha.suffix (ha.mem_of_isSubclass hra)
    have hmem := ha.trans (ha.mem_of_isSubclass hra) haa (haa.mem_of_isSubclass hab)
    simp only [ha.isSubclass, hmem, decide_true]
  · intro a hra har
    obtain ⟨above, haa, -⟩ := ha.suffix (ha.mem_of_isSubclass hra)
    exact ha.antisymm haa (ha.mem_of_isSubclass hra) (haa.mem_of_isSubclass har)

/-- Two classes of one name are made, the second below the first, and a collection keeps both. -/
def Vm.renamesNode (vm : Vm) : Bool :=
  match (Operation.classNew "Node" 1).run [Builtin.object.ref 0] vm with
  | .ok [old] vm₁ =>
    match (Operation.classNew "Node" 2).run [old] vm₁ with
    | .ok [new] vm₂ =>
      match Vm.collect vm₂ with
      | .ok _ vm₃ =>
        match vm₃.heap.cls new with
        | .ok c => decide (vm₁.heap.contains old = true ∧
            vm₃.classes.find? "Node" = some new ∧ c.name = "Node" ∧ c.super = some old)
        | _ => false
      | _ => false
    | _ => false
  | _ => false

/-- A class that took the name of its own super class, after a collection: the older class is kept
as an ancestor. -/
theorem Session.class_chains_grounded_renamed :
    ∃ (vm : Vm) (old new : Ref) (c : Class), (Session.boot {} {} 0 ⟨0, 0⟩).Reaches (.idle vm) ∧
      vm.classes.find? "Node" = some new ∧ vm.heap.cls new = .ok c ∧
      c.name = "Node" ∧ c.super = some old ∧ vm.heap.isSubclass new new = .ok true ∧
      ∃ path, vm.heap.Ascent new path ∧ (path.map Prod.fst).Nodup := by
  let vm₀ := Vm.boot {} {} 0 ⟨0, 0⟩
  have hrun : vm₀.renamesNode = true := by decide +kernel
  unfold Vm.renamesNode at hrun
  split at hrun <;> try cases hrun
  rename_i old vm₁ h₁
  split at hrun <;> try cases hrun
  rename_i new vm₂ h₂
  split at hrun <;> try cases hrun
  rename_i n vm₃ h₃
  split at hrun <;> try cases hrun
  rename_i c hc
  obtain ⟨hold, hname, hnode, hsuper⟩ := of_decide_eq_true hrun
  have hobject : ∀ r ∈ [Builtin.object.ref 0], vm₀.heap.contains r = true := by decide +kernel
  have hfirst : Session.Step (.idle vm₀) _ := .operation (.classNew "Node" 1) hobject
  have hsecond : Session.Step (.idle vm₁) _ :=
    .operation (.classNew "Node" 2) (List.forall_mem_singleton.mpr hold)
  have hthird : Session.Step (.idle vm₂) _ := .collect
  rw [h₁] at hfirst
  rw [h₂] at hsecond
  rw [h₃] at hthird
  have hreach : (Session.boot {} {} 0 ⟨0, 0⟩).Reaches (.idle vm₃) :=
    .tail (.tail (.single hfirst) hsecond) hthird
  obtain ⟨⟨path, ha, hnodup, -⟩, -, hrefl, -⟩ :=
    Session.class_chains_grounded {} {} 0 ⟨0, 0⟩ hreach new c hc
  exact ⟨vm₃, old, new, c, hreach, hname, hc, hnode, hsuper, hrefl, path, ha, hnodup⟩

end ObjectMachine
