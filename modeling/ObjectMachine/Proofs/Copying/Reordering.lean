import ObjectMachine.Proofs.Copying.Rebuilding
import ObjectMachine.Proofs.Scopes.Bindings

/-!
# ObjectMachine.Proofs.Copying.Reordering

Packing does not depend on the order in which closures list their variables.

The variables of a closure are a map, and its order has no meaning. Packing goes through the map in
the order it happens to have, and what it comes upon first decides how it fails; but it fails in
every order or in none, and sorts what it found.

* `Heap.Reorders` — the heaps hold the same, but for the orders of captured variables.
* `View.Tree.reorder` — the trees of the one are trees of the other.
* `Vm.pack_order_independent` — the result for tasks.
-/

namespace ObjectMachine

/-! ## Orders of captured variables -/

/-- The same body, or the same closure with its variables in another order; a name comes once. -/
inductive Body.Reorders : Body → Body → Prop where
  | same (b : Body) : Reorders b b
  | closure {code : Ref} {module : Option Ref} {vars vars' : NameMap Ref} :
      vars.names.Nodup → vars.entries.Perm vars'.entries →
      Reorders (.closure code module vars) (.closure code module vars')

inductive Payload.Reorders : Payload → Payload → Prop where
  | same (p : Payload) : Reorders p p
  | method {m : Method} {body : Body} :
      m.body.Reorders body → Reorders (.method m) (.method { m with body := body })

/-- Every reference leads to the same in both heaps, but each closure of either heap has its
variables in an order of its own. -/
structure Heap.Reorders (h h' : Heap) : Prop where
  there : ∀ {r p}, h.payload r = .ok p → ∃ p', h'.payload r = .ok p' ∧ p.Reorders p'
  back : ∀ {r p'}, h'.payload r = .ok p' → ∃ p, h.payload r = .ok p ∧ p.Reorders p'

theorem Body.Reorders.symm {b b' : Body} (h : b.Reorders b') : b'.Reorders b := by
  cases h with
  | same => exact .same _
  | closure hnodup hperm => exact .closure ((hperm.map Prod.fst).nodup_iff.mp hnodup) hperm.symm

theorem Payload.Reorders.symm {p p' : Payload} (h : p.Reorders p') : p'.Reorders p := by
  cases h with
  | same => exact .same _
  | @method m body hbody => exact .method (m := { m with body := body }) hbody.symm

namespace Heap.Reorders

variable {h h' : Heap}

theorem symm (hr : h.Reorders h') : h'.Reorders h where
  there hp := by
    obtain ⟨p, hp, hpp⟩ := hr.back hp
    exact ⟨p, hp, hpp.symm⟩
  back hp := by
    obtain ⟨p, hp, hpp⟩ := hr.there hp
    exact ⟨p, hp, hpp.symm⟩

theorem refl : h.Reorders h where
  there hp := ⟨_, hp, .same _⟩
  back hp := ⟨_, hp, .same _⟩

theorem there_place (hf : h.FreeList) (hf' : h'.FreeList) (hr : h.Reorders h') {o o' : Obj}
    (hat : (h.place o).1 = (h'.place o').1) (ho : o.payload.Reorders o'.payload) {r : Ref}
    {p : Payload} (hp : (h.place o).2.payload r = .ok p) :
    ∃ p', (h'.place o').2.payload r = .ok p' ∧ p.Reorders p' := by
  rcases payload_place_cases hf hp with ⟨rfl, rfl⟩ | hold
  · exact ⟨o'.payload, hat ▸ payload_place_self hf' o', ho⟩
  · obtain ⟨p', hp', hpp⟩ := hr.there hold
    exact ⟨p', payload_place_of_payload hf' _ hp', hpp⟩

/-- Heaps stay so when each gets an object at the same place. -/
theorem place (hf : h.FreeList) (hf' : h'.FreeList) (hr : h.Reorders h') {o o' : Obj}
    (hat : (h.place o).1 = (h'.place o').1) (ho : o.payload.Reorders o'.payload) :
    (h.place o).2.Reorders (h'.place o').2 where
  there := hr.there_place hf hf' hat ho
  back hp := by
    obtain ⟨p, hp, hpp⟩ := hr.symm.there_place hf' hf hat.symm ho.symm hp
    exact ⟨p, hp, hpp.symm⟩

/-- Only methods differ. -/
theorem serves (hr : h.Reorders h') : h.view.Serves h'.view where
  code hc := by
    obtain ⟨_, hc', ⟨⟩⟩ := hr.there hc
    exact hc'
  module hm := by
    obtain ⟨_, hm', ⟨⟩⟩ := hr.there hm
    exact hm'
  var hv := by
    obtain ⟨_, hv', ⟨⟩⟩ := hr.there hv
    exact hv'

end Heap.Reorders

/-! ## Trees -/

namespace View

variable {V W : View} {S T : Ref → Packed → Prop}

/-- A closure with its variables in another order is packed to the same tree. -/
theorem Body.reorder (hVW : V.Serves W) (hST : ∀ r p, S r p → T r p)
    {b b' : ObjectMachine.Body} {q : PackedBody} (hb : b.Reorders b') (h : V.Body S b q) :
    W.Body T b' q := by
  have hmono := h.mono hVW hST
  cases hb with
  | same => exact hmono
  | closure hnodup hperm =>
    cases hmono with
    | closure hcode hname hps =>
      -- the packed variables come in the new order, too, and are sorted to the same list
      obtain ⟨ps', hps', hperm'⟩ := List.perm_comp_forall₂ hperm.symm hps
      rw [NameMap.names, Captured.names hps] at hnodup
      rw [NameMap.sortByName_congr hperm'.symm hnodup]
      exact .closure hcode hname hps'

theorem Contents.reorder (hVW : V.Serves W) (hST : ∀ r p, S r p → T r p) {o o' : Payload}
    {p : Packed} (ho : o.Reorders o') (h : V.Contents S o p) : W.Contents T o' p := by
  cases ho with
  | same => exact h.mono hVW hST
  | @method m body hbody =>
    cases h with
    | method hpacked hreceiver =>
      exact .method (m := { m with body := body }) (hpacked.reorder hVW hST hbody)
        (optionRel_imp hreceiver fun _ _ _ _ => hST _ _)

/-- The trees of a heap stay when closures list their variables in another order. -/
theorem Tree.reorder {h h' : Heap} (hr : h.Reorders h') : ∀ {levels : Nat} {r : Ref} {p : Packed},
    h.view.Tree levels r p → h'.view.Tree levels r p := by
  intro levels
  induction levels with
  | zero => intro r p ht; exact ht
  | succ levels ih =>
    intro r p ht
    obtain ⟨o, ho, hp⟩ := ht
    obtain ⟨o', ho', hoo⟩ := hr.there ho
    exact ⟨o', ho', hp.reorder hr.serves (fun _ _ => ih) hoo⟩

end View

/-! ## Packing -/

namespace Vm

theorem pack_eq_ok {vm : Vm} {v : Ref} {p : Packed} :
    pack v vm = .ok p vm ↔ vm.heap.view.Tree (maxPackDepth + 1) v p := by
  rw [← Heap.packWithin_eq_ok, pack, Heap.pack]
  split
  · next q hq => simp [hq]
  · next e he => simp [he]

/-- In whatever orders the closures of the heap list their variables, a value is packed to the same
tree, or to none. -/
theorem pack_order_independent (vm : Vm) {h' : Heap} (hr : vm.heap.Reorders h') (v : Ref)
    (p : Packed) :
    pack v vm = .ok p vm ↔ pack v { vm with heap := h' } = .ok p { vm with heap := h' } := by
  rw [pack_eq_ok, pack_eq_ok]
  exact ⟨View.Tree.reorder hr, View.Tree.reorder hr.symm⟩

/-- A heap with a unit of code, a variable that holds nil and an unbound one. -/
def twoVars : Heap :=
  let code := (Heap.boot 0 {}).placeBuiltin .code (.code ⟨{}, #[]⟩)
  let x := code.2.placeBuiltin .var (.var (some (nilRef 0)))
  (x.2.placeBuiltin .var (.var none)).2

/-- A closure over the code of that heap, with its variables as `arrange` puts them. -/
def arrangedClosure (arrange : List (String × Ref) → List (String × Ref)) (name : String)
    (vars : List (String × Ref)) : Obj :=
  ⟨Builtin.method.ref 0,
    .method { name := name, body := .closure ⟨0, 19, 0⟩ none ⟨arrange vars⟩ }⟩

/-- A new task with a closure `g` over a closure `f` and the unbound variable, which `f` captures
too. -/
def nestedClosures (arrange : List (String × Ref) → List (String × Ref)) : Vm :=
  let f := twoVars.place (arrangedClosure arrange "f" [("x", ⟨0, 20, 0⟩), ("y", ⟨0, 21, 0⟩)])
  let z := f.2.placeBuiltin .var (.var (some f.1))
  let g := z.2.place (arrangedClosure arrange "g" [("f", z.1), ("y", ⟨0, 21, 0⟩)])
  { heap := g.2, task := ⟨0, 0⟩, config := {}, registry := {} }

theorem arrangedClosure_reorders (name : String) {vars : List (String × Ref)}
    (h : (vars.map Prod.fst).Nodup) :
    (arrangedClosure id name vars).payload.Reorders
      (arrangedClosure List.reverse name vars).payload :=
  .method (m := { name := name, body := .closure ⟨0, 19, 0⟩ none ⟨vars⟩ })
    (.closure h (List.reverse_perm vars).symm)

theorem nestedClosures_reorders :
    (nestedClosures id).heap.Reorders (nestedClosures List.reverse).heap := by
  have hcode := Heap.place_freeList (Heap.boot_sound 0 {}).freeList
    ⟨Builtin.code.ref 0, .code ⟨{}, #[]⟩⟩
  have hx := Heap.place_freeList hcode ⟨Builtin.var.ref 0, .var (some (nilRef 0))⟩
  have hfree : twoVars.FreeList := Heap.place_freeList hx ⟨Builtin.var.ref 0, .var none⟩
  let f (arrange) := arrangedClosure arrange "f" [("x", ⟨0, 20, 0⟩), ("y", ⟨0, 21, 0⟩)]
  let z : Obj := ⟨Builtin.var.ref 0, .var (some ⟨0, 22, 0⟩)⟩
  have hfree' : ∀ arrange, ((twoVars.place (f arrange)).2.place z).2.FreeList := fun arrange =>
    Heap.place_freeList (Heap.place_freeList hfree (f arrange)) z
  -- the heaps part at `f`; what comes after it goes to the same places
  have hf : (twoVars.place (f id)).2.Reorders (twoVars.place (f List.reverse)).2 :=
    .place hfree hfree .refl rfl (arrangedClosure_reorders "f" (by decide))
  have hz := hf.place (o := z) (Heap.place_freeList hfree _) (Heap.place_freeList hfree _) rfl
    (.same _)
  exact hz.place (hfree' id) (hfree' List.reverse) rfl (arrangedClosure_reorders "g" (by decide))

/-- The closure `g` lists `f` and `y` in the one heap, and `y` and `f` in the other; it is packed to
one tree. -/
theorem pack_order_independent_closures :
    (nestedClosures id).heap.Reorders (nestedClosures List.reverse).heap ∧
    (∃ p, pack ⟨0, 24, 0⟩ (nestedClosures id) = .ok p (nestedClosures id) ∧
      pack ⟨0, 24, 0⟩ (nestedClosures List.reverse) = .ok p (nestedClosures List.reverse)) := by
  have hrun : ∃ p, pack ⟨0, 24, 0⟩ (nestedClosures id) = .ok p (nestedClosures id) := ⟨_, rfl⟩
  obtain ⟨p, hp⟩ := hrun
  exact ⟨nestedClosures_reorders, p, hp,
    (pack_order_independent (nestedClosures id) nestedClosures_reorders ⟨0, 24, 0⟩ p).mp hp⟩

end Vm
end ObjectMachine
