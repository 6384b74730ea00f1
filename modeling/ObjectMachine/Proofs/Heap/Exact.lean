import ObjectMachine.Proofs.Heap.Marking
import ObjectMachine.Proofs.Heap.Sweeping
import Mathlib.Data.Set.Card

/-!
# ObjectMachine.Proofs.Heap.Exact

A collection frees the unreachable objects and leaves the others alone.

* `Heap.getElem?_sweep` — the cells after a sweep: those of the garbage are empty and a generation
  older, all others are what they were.
* `Heap.get_collect` — after a collection a reference names what it named before, if that was
  reachable, and otherwise nothing.
* `Heap.collect_exact` — the whole of it, with the number of objects freed, and a second
  collection that frees none.
* `Heap.collect_twice_fatal` — where classes do not report their super classes, a second
  collection may find a class chain broken.
-/

namespace ObjectMachine
namespace Heap

/-! ## Sweeping -/

/-- What a sweep leaves as it is, beside the cells. -/
structure SameFrame (h h' : Heap) : Prop where
  id : h'.id = h.id
  roots : h'.roots = h.roots
  size : h'.cells.size = h.cells.size
  nesting : h'.nesting = h.nesting

theorem sweep_frame (h : Heap) (marks : Marks) : SameFrame h (h.sweep marks).2 := by
  have hs := h.swept_emptied DtorFn.finalizers marks
  rw [← sweepBy_finalizers, sweepBy_snd]
  exact ⟨(congrArg Heap.id hs.books :), (congrArg Heap.roots hs.books :), hs.size,
    (congrArg Heap.nesting hs.books :)⟩

theorem getElem?_sweep (h : Heap) (marks : Marks) (j : Nat) :
    (h.sweep marks).2.cells[j]? =
      if j ∈ h.garbage marks then (h.cells[j]?).map fun cell => ⟨cell.generation + 1, none⟩
      else h.cells[j]? := by
  rw [← sweepBy_finalizers, getElem?_sweepBy]

theorem get_sweep {h : Heap} {marks : Marks} {r : Ref} {o : Obj} :
    (h.sweep marks).2.get r = .ok o ↔ h.get r = .ok o ∧ r.cell ∉ h.garbage marks := by
  rw [← sweepBy_finalizers, get_sweepBy]

/-- The cells to be used again after a sweep are the empty ones. -/
theorem sweep_freeList (h : Heap) (marks : Marks) : (h.sweep marks).2.FreeList := by
  refine ⟨fun c hc => ?_, List.nodup_range.filter _⟩
  have hc : c ∈ (h.sweep marks).2.emptyCells := hc
  simp only [emptyCells, List.mem_filter] at hc
  cases hcell : (h.sweep marks).2.cells[c]? with
  | none => simp [hcell] at hc
  | some cell => exact ⟨cell, rfl, by simpa [hcell] using hc.2⟩

/-! ## Collecting -/

/-- The objects of `h'` are those objects of `h` that the roots lead to. -/
def KeepsReachable (h : Heap) (roots : List Ref) (h' : Heap) : Prop :=
  ∀ r o, h'.get r = .ok o ↔ h.get r = .ok o ∧ h.Reachable roots r

/-- Every class reports its super class. -/
def TracesSupers (h : Heap) : Prop :=
  ∀ r c s, h.cls r = .ok c → c.super = some s → h.Edge r s

section Collect

variable {h : Heap} {extra : List Ref}

/-- A collection ends, and a reference then names what it named before, if that was reachable, and
otherwise nothing. -/
theorem get_collect (ht : h.Traceable (h.roots ++ extra)) :
    ∃ marks, h.collect extra = .ok (h.sweep marks) ∧
      (∀ i, i ∈ h.garbage marks ↔
        ∃ r, r.cell = i ∧ h.contains r = true ∧ ¬ h.Reachable (h.roots ++ extra) r) ∧
      h.KeepsReachable (h.roots ++ extra) (h.sweep marks).2 := by
  obtain ⟨marks, hmarks, hexact⟩ := marks_exact ht
  have hgarbage : ∀ i, i ∈ h.garbage marks ↔
      ∃ r, r.cell = i ∧ h.contains r = true ∧ ¬ h.Reachable (h.roots ++ extra) r := by
    intro i
    constructor
    · intro hi
      refine ⟨h.refAt i, rfl, contains_refAt hi, fun hreach => ?_⟩
      have hmark : marks.has i = true := (hexact _ (contains_refAt hi)).mpr hreach
      rw [(mem_garbage.mp hi).2] at hmark
      cases hmark
    · rintro ⟨r, rfl, hlive, hun⟩
      obtain ⟨o, ho⟩ := contains_iff.mp hlive
      obtain ⟨-, cell, hcell, -, hobj⟩ := get_eq_ok.mp ho
      refine mem_garbage.mpr ⟨by simp [objAt, hcell, hobj], ?_⟩
      cases hmark : marks.has r.cell with
      | false => rfl
      | true => exact absurd ((hexact r hlive).mp hmark) hun
  refine ⟨marks, by simp [collect, hmarks], hgarbage, fun r o => ?_⟩
  rw [get_sweep]
  refine and_congr_right fun ho => ?_
  have hlive := contains_of_get ho
  constructor
  · intro hr
    exact Classical.byContradiction fun hun => hr ((hgarbage _).mpr ⟨r, rfl, hlive, hun⟩)
  · rintro hreach hr
    obtain ⟨s, hs, hslive, hsun⟩ := (hgarbage _).mp hr
    exact hsun (eq_of_cell_eq hslive hlive hs ▸ hreach)

/-- The garbage has as many cells as there are unreachable objects. -/
theorem garbage_length {marks : Marks}
    (hg : ∀ i, i ∈ h.garbage marks ↔
      ∃ r, r.cell = i ∧ h.contains r = true ∧ ¬ h.Reachable (h.roots ++ extra) r) :
    (h.garbage marks).length =
      {r | h.contains r = true ∧ ¬ h.Reachable (h.roots ++ extra) r}.ncard := by
  have himage : Ref.cell '' {r | h.contains r = true ∧ ¬ h.Reachable (h.roots ++ extra) r} =
      ((h.garbage marks).toFinset : Set Nat) := by
    ext i
    simp only [Set.mem_image, Set.mem_ofPred_eq, List.coe_toFinset, hg]
    exact ⟨fun ⟨r, hr, hc⟩ => ⟨r, hc, hr⟩, fun ⟨r, hc, hr⟩ => ⟨r, hr, hc⟩⟩
  have hinj : Set.InjOn Ref.cell
      {r | h.contains r = true ∧ ¬ h.Reachable (h.roots ++ extra) r} :=
    fun r hr s hs hc => eq_of_cell_eq hr.1 hs.1 hc
  rw [← hinj.ncard_image, himage, Set.ncard_coe_finset,
    List.toFinset_card_of_nodup (h.garbage_nodup marks)]

end Collect

/-! ## Collecting again -/

namespace KeepsReachable

variable {h h' : Heap} {roots : List Ref}

theorem contains (hk : h.KeepsReachable roots h') {r : Ref} :
    h'.contains r = true ↔ h.contains r = true ∧ h.Reachable roots r := by
  simp only [contains_iff, hk r]
  exact ⟨fun ⟨o, ho, hr⟩ => ⟨⟨o, ho⟩, hr⟩, fun ⟨⟨o, ho⟩, hr⟩ => ⟨o, ho, hr⟩⟩

theorem cls (hk : h.KeepsReachable roots h') {r : Ref} {c : Class} :
    h'.cls r = .ok c ↔ h.cls r = .ok c ∧ h.Reachable roots r := by
  simp only [cls_eq_ok, hk r]
  exact ⟨fun ⟨k, hg, hr⟩ => ⟨⟨k, hg⟩, hr⟩, fun ⟨⟨k, hg⟩, hr⟩ => ⟨k, hg, hr⟩⟩

theorem lineage_before (hk : h.KeepsReachable roots h') {r : Ref} {cs : List Class}
    (hl : h'.Lineage r cs) : h.Lineage r cs := by
  induction hl with
  | root hc hs => exact .root (hk.cls.mp hc).1 hs
  | step hc hs _ ih => exact .step (hk.cls.mp hc).1 hs ih

theorem lineage_after (hk : h.KeepsReachable roots h') (hsup : h.TracesSupers) {r : Ref}
    {cs : List Class} (hl : h.Lineage r cs) (hr : h.Reachable roots r) : h'.Lineage r cs := by
  induction hl with
  | root hc hs => exact .root (hk.cls.mpr ⟨hc, hr⟩) hs
  | step hc hs _ ih => exact .step (hk.cls.mpr ⟨hc, hr⟩) hs (ih (.edge hr (hsup _ _ _ hc hs)))

theorem edge_before (hk : h.KeepsReachable roots h') {r s : Ref} (he : h'.Edge r s) :
    h.Edge r s := by
  cases he with
  | cls ho => exact .cls ((hk _ _).mp ho).1
  | traced ho hl hc hf hs => exact .traced ((hk _ _).mp ho).1 (hk.lineage_before hl) hc hf hs

theorem edge_after (hk : h.KeepsReachable roots h') (hsup : h.TracesSupers) {r s : Ref}
    (hr : h.Reachable roots r) (he : h.Edge r s) : h'.Edge r s := by
  cases he with
  | cls ho => exact .cls ((hk _ _).mpr ⟨ho, hr⟩)
  | traced ho hl hc hf hs =>
    exact .traced ((hk _ _).mpr ⟨ho, hr⟩) (hk.lineage_after hsup hl (.edge hr (.cls ho))) hc hf hs

theorem reachable_after (hk : h.KeepsReachable roots h') (hsup : h.TracesSupers) {r : Ref}
    (hr : h.Reachable roots r) : h'.Reachable roots r := by
  induction hr with
  | root hr => exact .root hr
  | edge hr he ih => exact .edge ih (hk.edge_after hsup hr he)

/-- What is left can be traced again. -/
theorem traceable (hk : h.KeepsReachable roots h') (hsup : h.TracesSupers)
    (ht : h.Traceable roots) : h'.Traceable roots where
  root_live r hr := hk.contains.mpr ⟨ht.root_live r hr, .root hr⟩
  edge_live r s he := by
    have hr : h.Reachable roots r := by
      cases he with
      | cls ho => exact ((hk _ _).mp ho).2
      | traced ho => exact ((hk _ _).mp ho).2
    exact hk.contains.mpr ⟨ht.edge_live r s (hk.edge_before he), .edge hr (hk.edge_before he)⟩
  lineage r o ho := by
    obtain ⟨ho, hr⟩ := (hk r o).mp ho
    obtain ⟨cs, hl⟩ := ht.lineage r o ho
    exact ⟨cs, hk.lineage_after hsup hl (.edge hr (.cls ho))⟩

end KeepsReachable

/-- A collection is exact: it ends, it leaves precisely the reachable objects, each under its
reference and with its class and payload, and it answers how many were unreachable. Where classes
report their super classes, another collection from the same roots finds nothing to free. -/
theorem collect_exact {h : Heap} {extra : List Ref} (ht : h.Traceable (h.roots ++ extra)) :
    ∃ freed h', h.collect extra = .ok (freed, h') ∧
      h.KeepsReachable (h.roots ++ extra) h' ∧
      freed = {r | h.contains r = true ∧ ¬ h.Reachable (h.roots ++ extra) r}.ncard ∧
      (h.TracesSupers → ∃ h'', h'.collect extra = .ok (0, h'')) := by
  obtain ⟨marks, hrun, hgarbage, hk⟩ := get_collect ht
  refine ⟨(h.sweep marks).1, (h.sweep marks).2, hrun, hk, garbage_length hgarbage, fun hsup => ?_⟩
  have hroots : (h.sweep marks).2.roots = h.roots := (sweep_frame h marks).roots
  have ht' : (h.sweep marks).2.Traceable ((h.sweep marks).2.roots ++ extra) := by
    rw [hroots]; exact hk.traceable hsup ht
  obtain ⟨marks', hrun', hgarbage', -⟩ := get_collect ht'
  have hnone : ((h.sweep marks).2.sweep marks').1 = 0 := by
    refine (garbage_length hgarbage').trans ?_
    rw [hroots, Set.eq_empty_of_forall_notMem (s := {r | _ ∧ _}), Set.ncard_empty]
    rintro r ⟨hlive, hun⟩
    exact hun (hk.reachable_after hsup (hk.contains.mp hlive).2)
  exact ⟨((h.sweep marks).2.sweep marks').2, by rw [hrun', ← hnone]⟩

/-- Two arrays that hold each other and that nothing else holds, and an array apart. -/
def cyclic : Heap :=
  { empty 0 {} with
    cells := #[
      { obj := some ⟨⟨0, 0, 0⟩,
          .cls { name := "Class", super := none, size := 0, slots := { mark := some .cls } }⟩ },
      { obj := some ⟨⟨0, 0, 0⟩,
          .cls { name := "Array", super := none, size := 0, slots := { mark := some .array } }⟩ },
      { obj := some ⟨⟨0, 1, 0⟩, .array #[⟨0, 3, 0⟩]⟩ },
      { obj := some ⟨⟨0, 1, 0⟩, .array #[⟨0, 2, 0⟩]⟩ },
      { obj := some ⟨⟨0, 1, 0⟩, .array #[]⟩ }]
    roots := [⟨0, 0, 0⟩, ⟨0, 1, 0⟩]
    live := 5 }

theorem cyclic_traceable : cyclic.Traceable (cyclic.roots ++ [⟨0, 4, 0⟩]) where
  root_live := by decide
  edge_live _ _ he := (Closed.of_objects (h := cyclic) (by decide)).edge_live he
  lineage r o ho := by
    have hcls : ∀ o ∈ cyclic.objects, o.cls = ⟨0, 0, 0⟩ ∨ o.cls = ⟨0, 1, 0⟩ := by decide
    rcases hcls o (mem_objects ho) with hc | hc <;> rw [hc] <;> exact ⟨_, .root rfl rfl⟩

/-- The two arrays are freed, and nothing else, also if the heap is collected again. -/
theorem collect_exact_cyclic :
    ∃ h', cyclic.collect [⟨0, 4, 0⟩] = .ok (2, h') ∧
      cyclic.KeepsReachable (cyclic.roots ++ [⟨0, 4, 0⟩]) h' ∧
      ∃ h'', h'.collect [⟨0, 4, 0⟩] = .ok (0, h'') := by
  obtain ⟨freed, h', hrun, hk, -, hagain⟩ := collect_exact cyclic_traceable
  obtain ⟨heap, htwo⟩ : ∃ heap, cyclic.collect [⟨0, 4, 0⟩] = .ok (2, heap) := ⟨_, rfl⟩
  obtain ⟨rfl, rfl⟩ : freed = 2 ∧ h' = heap := by
    rw [hrun] at htwo
    exact Prod.mk.inj (Except.ok.inj htwo)
  refine ⟨h', hrun, hk, hagain fun r c s hc hs => ?_⟩
  obtain ⟨k, hg⟩ := cls_eq_ok.mp hc
  have hnone : ∀ o ∈ cyclic.objects, o.payload.kind = "class" → o.payload.refs = [] := by decide
  have := hnone _ (mem_objects hg) rfl
  simp [Payload.refs, Payload.markFn?, MarkFn.targets, hs] at this

/-- A class whose class has no tracing function, with a super class and an instance. -/
def untraced : Heap :=
  { empty 0 {} with
    cells := #[
      { obj := some ⟨⟨0, 0, 0⟩, .cls { name := "Class", super := none, size := 0, slots := {} }⟩ },
      { obj := some ⟨⟨0, 0, 0⟩, .cls { name := "Base", super := none, size := 0, slots := {} }⟩ },
      { obj := some ⟨⟨0, 0, 0⟩,
          .cls { name := "Derived", super := some ⟨0, 1, 0⟩, size := 0, slots := {} }⟩ },
      { obj := some ⟨⟨0, 2, 0⟩, .object #[]⟩ }]
    roots := [⟨0, 0, 0⟩]
    live := 4 }

/-- Where classes do not report their super classes, a second collection may find a chain broken:
the first one has freed a class that only its subclass knew. -/
theorem collect_twice_fatal :
    (∀ r ∈ untraced.roots ++ [⟨0, 3, 0⟩], untraced.contains r = true) ∧ untraced.Closed ∧
      ∃ h', untraced.collect [⟨0, 3, 0⟩] = .ok (1, h') ∧
        h'.collect [⟨0, 3, 0⟩] = .error (.collected ⟨0, 1, 0⟩) :=
  ⟨by decide, .of_objects (by decide), _, rfl, rfl⟩

end Heap
end ObjectMachine
