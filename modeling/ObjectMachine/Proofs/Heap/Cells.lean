import ObjectMachine.Heap

/-!
# ObjectMachine.Proofs.Heap.Cells

Which object a reference names, and how the changes of a heap bear on that.

* `Heap.get_eq_ok` — a reference names an object if and only if it was made in the heap, and its
  cell is occupied and of its generation.
* `Heap.get_place` — a new object gets a reference of its own; every other one names what it named.
* `Heap.get_update` — another payload for one object; every other one stays.
* `Heap.FreeList` — the cells to be used again are empty ones, each listed once.
-/

namespace ObjectMachine

/-- Another object in a cell, if there is one. -/
def Cell.alter (g : Obj → Obj) (cell : Cell) : Cell :=
  { cell with obj := cell.obj.map g }

@[simp] theorem Cell.alter_id : Cell.alter (fun o => o) = id := by
  funext cell
  simp [Cell.alter]

@[simp] theorem Cell.alter_alter (f g : Obj → Obj) (cell : Cell) :
    (cell.alter f).alter g = cell.alter (g ∘ f) := by
  simp [Cell.alter]

namespace Heap

theorem find?_eq_some {h : Heap} {r : Ref} {o : Obj} :
    h.find? r = some o ↔
      ∃ cell, h.cells[r.cell]? = some cell ∧ cell.generation = r.generation ∧ cell.obj = some o := by
  unfold find?
  cases h.cells[r.cell]? with
  | none => simp
  | some cell =>
    by_cases hg : cell.generation = r.generation
    · simp [hg]
    · simp [hg]

theorem get_eq_ok {h : Heap} {r : Ref} {o : Obj} :
    h.get r = .ok o ↔ r.heap = h.id ∧
      ∃ cell, h.cells[r.cell]? = some cell ∧ cell.generation = r.generation ∧ cell.obj = some o := by
  rw [← find?_eq_some]
  unfold get
  by_cases hid : r.heap = h.id
  · cases hf : h.find? r with
    | none => simp [hid]
    | some p => simp [hid]
  · simp [hid]

theorem contains_iff {h : Heap} {r : Ref} : h.contains r = true ↔ ∃ o, h.get r = .ok o := by
  unfold contains get
  by_cases hid : r.heap = h.id
  · cases hf : h.find? r with
    | none => simp [hid]
    | some p => simp [hid]
  · simp [hid]

theorem contains_of_get {h : Heap} {r : Ref} {o : Obj} (ho : h.get r = .ok o) :
    h.contains r = true :=
  contains_iff.mpr ⟨o, ho⟩

theorem contains_heap {h : Heap} {r : Ref} (hr : h.contains r = true) : r.heap = h.id := by
  obtain ⟨o, ho⟩ := contains_iff.mp hr
  exact (get_eq_ok.mp ho).1

theorem contains_cell_lt {h : Heap} {r : Ref} (hr : h.contains r = true) :
    r.cell < h.cells.size := by
  obtain ⟨o, ho⟩ := contains_iff.mp hr
  obtain ⟨-, cell, hc, -⟩ := get_eq_ok.mp ho
  exact (Array.getElem?_eq_some_iff.mp hc).1

/-- A cell has room for one live reference. -/
theorem eq_of_cell_eq {h : Heap} {r s : Ref} (hr : h.contains r = true) (hs : h.contains s = true)
    (hc : r.cell = s.cell) : r = s := by
  obtain ⟨o, ho⟩ := contains_iff.mp hr
  obtain ⟨p, hp⟩ := contains_iff.mp hs
  obtain ⟨hid, cell, hcell, hgen, -⟩ := get_eq_ok.mp ho
  obtain ⟨hid', cell', hcell', hgen', -⟩ := get_eq_ok.mp hp
  have he : cell = cell' := by
    rw [hc, hcell'] at hcell
    exact (Option.some.inj hcell).symm
  cases r
  cases s
  simp_all

/-! ## New objects -/

/-- What `place` needs of the list of free cells. -/
structure FreeList (h : Heap) : Prop where
  empty : ∀ c ∈ h.free, ∃ cell, h.cells[c]? = some cell ∧ cell.obj = none
  nodup : h.free.Nodup

@[simp] theorem place_id (h : Heap) (o : Obj) : (h.place o).2.id = h.id := by
  unfold place; split <;> rfl

@[simp] theorem place_roots (h : Heap) (o : Obj) : (h.place o).2.roots = h.roots := by
  unfold place; split <;> rfl

@[simp] theorem place_nesting (h : Heap) (o : Obj) : (h.place o).2.nesting = h.nesting := by
  unfold place; split <;> rfl

theorem get_place {h : Heap} (hf : h.FreeList) (o : Obj) (x : Ref) :
    (h.place o).2.get x = if x = (h.place o).1 then .ok o else h.get x := by
  unfold place
  cases hfree : h.free with
  | nil =>
    simp only [get, find?, Array.getElem?_push]
    by_cases hx : x = ⟨h.id, h.cells.size, 0⟩
    · subst hx; simp
    · rw [if_neg hx]
      by_cases hid : x.heap = h.id
      · by_cases hc : x.cell = h.cells.size
        · have hg : ¬ (0 = x.generation) := fun hg => hx (by cases x; simp_all)
          simp [hid, hc, hg]
        · simp [hc]
      · simp [hid]
  | cons c rest =>
    obtain ⟨cell, hcell, -⟩ := hf.empty c (by rw [hfree]; exact List.mem_cons_self)
    simp only [hcell, Option.map_some, Option.getD_some, get, find?, Array.getElem?_modify]
    by_cases hx : x = ⟨h.id, c, cell.generation⟩
    · subst hx; simp [hcell]
    · rw [if_neg hx]
      by_cases hid : x.heap = h.id
      · by_cases hc : c = x.cell
        · subst hc
          have hg : ¬ (cell.generation = x.generation) := fun hg => hx (by cases x; simp_all)
          simp [hid, hcell, hg]
        · simp [hc]
      · simp [hid]

/-- The reference of a new object named nothing before. -/
theorem place_fresh {h : Heap} (hf : h.FreeList) (o : Obj) : h.contains (h.place o).1 = false := by
  unfold place
  cases hfree : h.free with
  | nil => simp [contains, find?]
  | cons c rest =>
    obtain ⟨cell, hcell, hnone⟩ := hf.empty c (by rw [hfree]; exact List.mem_cons_self)
    simp [contains, find?, hcell, hnone]

theorem place_freeList {h : Heap} (hf : h.FreeList) (o : Obj) : (h.place o).2.FreeList := by
  unfold place
  cases hfree : h.free with
  | nil => exact ⟨by simp, by simp⟩
  | cons c rest =>
    have hn := hf.nodup
    rw [hfree, List.nodup_cons] at hn
    refine ⟨fun d hd => ?_, hn.2⟩
    obtain ⟨cell, hcell, hnone⟩ := hf.empty d (by rw [hfree]; exact List.mem_cons_of_mem _ hd)
    have hne : c ≠ d := fun he => hn.1 (he ▸ hd)
    exact ⟨cell, by simpa [Array.getElem?_modify, hne] using hcell, hnone⟩

/-! ## Other payloads -/

/-- Where a cell has another object, its reference names that one. -/
theorem get_of_alter {h h' : Heap} (hid : h'.id = h.id) {x : Ref} {g : Obj → Obj}
    (hcell : h'.cells[x.cell]? = (h.cells[x.cell]?).map (Cell.alter g)) :
    h'.get x = (h.get x).map g := by
  simp only [get, find?, hid, hcell]
  by_cases hx : x.heap = h.id
  · cases h.cells[x.cell]? with
    | none => simp [hx, Except.map]
    | some cell =>
      by_cases hg : cell.generation = x.generation
      · cases ho : cell.obj <;> simp [hx, hg, ho, Cell.alter, Except.map]
      · simp [hx, hg, Cell.alter, Except.map]
  · simp [hx, Except.map]

theorem get_update (h : Heap) (r : Ref) (f : Payload → Payload) (x : Ref) :
    (h.update r f).get x =
      (h.get x).map fun o => if r.cell = x.cell then { o with payload := f o.payload } else o := by
  refine get_of_alter (show (h.update r f).id = h.id from rfl) ?_
  simp only [update, Array.getElem?_modify]
  split
  · rfl
  · simp

theorem update_freeList {h : Heap} (hf : h.FreeList) (r : Ref) (f : Payload → Payload) :
    (h.update r f).FreeList := by
  refine ⟨fun c hc => ?_, hf.nodup⟩
  obtain ⟨cell, hcell, hnone⟩ := hf.empty c hc
  by_cases he : r.cell = c
  · exact ⟨{ cell with obj := none }, by simp [update, Array.getElem?_modify, he, hcell, hnone], rfl⟩
  · exact ⟨cell, by simpa [update, Array.getElem?_modify, he] using hcell, hnone⟩

end Heap
end ObjectMachine
