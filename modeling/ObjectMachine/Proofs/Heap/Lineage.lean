import ObjectMachine.Heap.Collect
import ObjectMachine.Proofs.Heap.Cells
import Mathlib.Data.List.Perm.Subperm

/-!
# ObjectMachine.Proofs.Heap.Lineage

Class chains as finite lists.

`Lineage h r cs` says that the classes from `r` up to a root class are `cs`. A class occurs once
in its chain, so a chain is not longer than the heap is large, and the walks that are bounded by
the number of cells never stop short.

* `Chain` — a chain that may end where a class is gone; `Chain.length_le` — the bound.
* `Chain.dtorsFrom` — the finalizers along a chain.
* `Lineage.findInChain`, `Lineage.markFns` — what the walks along a chain find.
* `Lineage.mono` — a chain stays what it is while its classes keep their slots and super classes.
-/

namespace ObjectMachine
namespace Heap

/-- The classes from `r` upwards, root class last. -/
inductive Lineage (h : Heap) : Ref → List Class → Prop where
  | root {r : Ref} {c : Class} : h.cls r = .ok c → c.super = none → Lineage h r [c]
  | step {r s : Ref} {c : Class} {cs : List Class} :
      h.cls r = .ok c → c.super = some s → Lineage h s cs → Lineage h r (c :: cs)

theorem cls_eq_ok {h : Heap} {r : Ref} {c : Class} :
    h.cls r = .ok c ↔ ∃ k, h.get r = .ok ⟨k, .cls c⟩ := by
  unfold cls payload
  cases hg : h.get r with
  | error e => simp
  | ok o =>
    obtain ⟨k, p⟩ := o
    cases p <;> simp

theorem cls_contains {h : Heap} {r : Ref} {c : Class} (hc : h.cls r = .ok c) :
    h.contains r = true := by
  obtain ⟨k, hk⟩ := cls_eq_ok.mp hc
  exact contains_of_get hk

/-- What a class has itself it need not look for. -/
theorem requireSlot_own {h : Heap} {α : Type} {k : Ref} {c : Class} {pick : Slots → Option α}
    {fn : α} (slot : Slot) (hc : h.cls k = .ok c) (hfn : pick c.slots = some fn) :
    h.requireSlot slot pick k = .ok fn := by
  have hfound : h.findSlot pick k = .ok (some fn) := by
    simp [findSlot, findInChain, findFrom, hc, hfn]
  rw [requireSlot, hfound]
  rfl

/-- The classes from `r` upwards as far as there are any: the last one is a root class, or leads to
where no class is. `stop` says where a chain may end so. -/
inductive Chain (h : Heap) (stop : Ref → Prop) : Ref → List Class → Prop where
  | gone {r : Ref} : h.cls? r = none → stop r → Chain h stop r []
  | root {r : Ref} {c : Class} : h.cls r = .ok c → c.super = none → Chain h stop r [c]
  | step {r s : Ref} {c : Class} {cs : List Class} :
      h.cls r = .ok c → c.super = some s → Chain h stop s cs → Chain h stop r (c :: cs)

theorem cls?_eq_some {h : Heap} {r : Ref} {c : Class} : h.cls? r = some c ↔ h.cls r = .ok c := by
  unfold cls?
  cases h.cls r <;> simp

namespace Chain

variable {h : Heap} {stop : Ref → Prop} {r : Ref} {cs : List Class}

theorem unique {ds : List Class} (hl : h.Chain stop r cs) (hd : h.Chain stop r ds) : cs = ds := by
  induction hl generalizing ds with
  | gone hnone _ =>
    cases hd with
    | gone => rfl
    | root hc _ => rw [cls?_eq_some.mpr hc] at hnone; cases hnone
    | step hc _ _ => rw [cls?_eq_some.mpr hc] at hnone; cases hnone
  | root hc hs =>
    cases hd with
    | gone hnone _ => rw [cls?_eq_some.mpr hc] at hnone; cases hnone
    | root hc' _ => rw [hc] at hc'; cases hc'; rfl
    | step hc' hs' _ => rw [hc] at hc'; cases hc'; rw [hs] at hs'; cases hs'
  | step hc hs _ ih =>
    cases hd with
    | gone hnone _ => rw [cls?_eq_some.mpr hc] at hnone; cases hnone
    | root hc' hs' => rw [hc] at hc'; cases hc'; rw [hs] at hs'; cases hs'
    | step hc' hs' hl' =>
      rw [hc] at hc'; cases hc'
      rw [hs] at hs'; cases hs'
      rw [ih hl']

/-- The class objects of a chain: as many as there are classes, and no two in one cell. A class
that came twice would have a chain shorter than itself. -/
theorem refs (hl : h.Chain stop r cs) :
    ∃ rs : List Ref, rs.length = cs.length ∧ (rs.map Ref.cell).Nodup ∧
      ∀ x ∈ rs, h.contains x = true ∧ ∃ ds, h.Chain stop x ds ∧ ds.length ≤ cs.length := by
  induction hl with
  | gone => exact ⟨[], rfl, List.nodup_nil, by simp⟩
  | @root r c hc hs =>
    refine ⟨[r], rfl, by simp, ?_⟩
    intro x hx
    rw [List.mem_singleton] at hx
    subst hx
    exact ⟨cls_contains hc, [c], .root hc hs, Nat.le_refl _⟩
  | @step r s c cs hc hs hl ih =>
    obtain ⟨rs, hlen, hnodup, hall⟩ := ih
    have hself : h.Chain stop r (c :: cs) := .step hc hs hl
    refine ⟨r :: rs, by simp [hlen], ?_, ?_⟩
    · rw [List.map_cons, List.nodup_cons]
      refine ⟨fun hmem => ?_, hnodup⟩
      obtain ⟨x, hx, hcell⟩ := List.mem_map.mp hmem
      obtain ⟨hlive, ds, hds, hle⟩ := hall x hx
      have he : x = r := eq_of_cell_eq hlive (cls_contains hc) hcell
      subst he
      rw [hds.unique hself] at hle
      exact Nat.not_succ_le_self _ hle
    · intro x hx
      rcases List.mem_cons.mp hx with rfl | hx
      · exact ⟨cls_contains hc, _, hself, Nat.le_refl _⟩
      · obtain ⟨hlive, ds, hds, hle⟩ := hall x hx
        exact ⟨hlive, ds, hds, Nat.le_succ_of_le hle⟩

theorem length_le (hl : h.Chain stop r cs) : cs.length ≤ h.cells.size := by
  obtain ⟨rs, hlen, hnodup, hall⟩ := hl.refs
  have hsub : rs.map Ref.cell ⊆ List.range h.cells.size := by
    intro i hi
    obtain ⟨x, hx, rfl⟩ := List.mem_map.mp hi
    exact List.mem_range.mpr (contains_cell_lt (hall x hx).1)
  have := (List.subperm_of_subset hnodup hsub).length_le
  simpa [hlen] using this

/-- Looking for finalizers, one passes over a class that is gone. -/
theorem dtorsFrom (hl : h.Chain stop r cs) :
    ∀ fuel, cs.length ≤ fuel → h.dtorsFrom fuel r = cs.flatMap fun c => c.slots.dtor.toList := by
  induction hl with
  | gone hnone _ =>
    intro fuel _
    cases fuel with
    | zero => rfl
    | succ fuel => simp [Heap.dtorsFrom, hnone]
  | root hc hs =>
    intro fuel hfuel
    cases fuel with
    | zero => simp at hfuel
    | succ fuel => simp [Heap.dtorsFrom, cls?_eq_some.mpr hc, hs]
  | @step r s c cs hc hs _ ih =>
    intro fuel hfuel
    cases fuel with
    | zero => simp at hfuel
    | succ fuel =>
      have hle : cs.length ≤ fuel := Nat.le_of_succ_le_succ hfuel
      simp [Heap.dtorsFrom, cls?_eq_some.mpr hc, hs, ih fuel hle]

end Chain

namespace Lineage

variable {h : Heap} {r : Ref} {cs : List Class}

theorem head (hl : h.Lineage r cs) : ∃ c rest, cs = c :: rest ∧ h.cls r = .ok c := by
  cases hl with
  | root hc _ => exact ⟨_, _, rfl, hc⟩
  | step hc _ _ => exact ⟨_, _, rfl, hc⟩

theorem mem (hl : h.Lineage r cs) {c : Class} (hc : c ∈ cs) : ∃ x, h.cls x = .ok c := by
  induction hl with
  | @root r d hd _ =>
    obtain rfl := List.mem_singleton.mp hc
    exact ⟨r, hd⟩
  | @step r _ d _ hd _ _ ih =>
    rcases List.mem_cons.mp hc with rfl | hc
    · exact ⟨r, hd⟩
    · exact ih hc

/-- A chain that goes up to a root class is one of those that may end early. -/
theorem chain {stop : Ref → Prop} (hl : h.Lineage r cs) : h.Chain stop r cs := by
  induction hl with
  | root hc hs => exact .root hc hs
  | step hc hs _ ih => exact .step hc hs ih

theorem unique {ds : List Class} (hl : h.Lineage r cs) (hd : h.Lineage r ds) : cs = ds :=
  have hc : h.Chain (fun _ => False) r cs := hl.chain
  hc.unique hd.chain

theorem length_le (hl : h.Lineage r cs) : cs.length ≤ h.cells.size :=
  have hc : h.Chain (fun _ => False) r cs := hl.chain
  hc.length_le

theorem findFrom {α : Type} {pick : Class → Option α} (hl : h.Lineage r cs) :
    ∀ fuel, cs.length ≤ fuel → h.findFrom pick fuel r = .ok (cs.findSome? pick) := by
  induction hl with
  | @root r c hc hs =>
    intro fuel hfuel
    cases fuel with
    | zero => simp at hfuel
    | succ fuel =>
      cases hp : pick c <;> simp [Heap.findFrom, hc, hs, hp]
  | @step r s c cs hc hs _ ih =>
    intro fuel hfuel
    cases fuel with
    | zero => simp at hfuel
    | succ fuel =>
      have hle : cs.length ≤ fuel := Nat.le_of_succ_le_succ hfuel
      cases hp : pick c <;> simp [Heap.findFrom, hc, hs, hp, ih fuel hle]

theorem findInChain {α : Type} {pick : Class → Option α} (hl : h.Lineage r cs) :
    h.findInChain pick r = .ok (cs.findSome? pick) :=
  hl.findFrom _ (Nat.le_succ_of_le hl.length_le)

theorem markFnsFrom (hl : h.Lineage r cs) :
    ∀ fuel, cs.length ≤ fuel →
      h.markFnsFrom fuel r = .ok (cs.flatMap fun c => c.slots.mark.toList) := by
  induction hl with
  | root hc hs =>
    intro fuel hfuel
    cases fuel with
    | zero => simp at hfuel
    | succ fuel => simp [Heap.markFnsFrom, hc, hs]
  | @step r s c cs hc hs _ ih =>
    intro fuel hfuel
    cases fuel with
    | zero => simp at hfuel
    | succ fuel =>
      have hle : cs.length ≤ fuel := Nat.le_of_succ_le_succ hfuel
      simp [Heap.markFnsFrom, hc, hs, ih fuel hle]

theorem markFns (hl : h.Lineage r cs) :
    h.markFnsFrom (h.cells.size + 1) r = .ok (cs.flatMap fun c => c.slots.mark.toList) :=
  hl.markFnsFrom _ (Nat.le_succ_of_le hl.length_le)

/-- A heap in which the classes of a chain are what they were has the same chain. -/
theorem mono {h' : Heap} (hl : h.Lineage r cs)
    (hkeep : ∀ x c, h.cls x = .ok c → ∃ c', h'.cls x = .ok c' ∧
      c'.super = c.super ∧ c'.slots = c.slots) :
    ∃ cs', h'.Lineage r cs' ∧ cs'.map Class.slots = cs.map Class.slots := by
  induction hl with
  | @root r c hc hs =>
    obtain ⟨c', hc', hsup, hslots⟩ := hkeep r c hc
    exact ⟨[c'], .root hc' (hsup.trans hs), by simp [hslots]⟩
  | @step r s c cs hc hs _ ih =>
    obtain ⟨c', hc', hsup, hslots⟩ := hkeep r c hc
    obtain ⟨cs', hl', hmap⟩ := ih
    exact ⟨c' :: cs', .step hc' (hsup.trans hs) hl', by simp [hslots, hmap]⟩

end Lineage
end Heap
end ObjectMachine
