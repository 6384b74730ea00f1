import ObjectMachine.Proofs.Heap.Lineage

/-!
# ObjectMachine.Proofs.Heap.Sweeping

What a sweep does, disposal by disposal.

A sweep turns to one unmarked object after another, gathers the finalizers along its class chain
and runs them. Only when all of them have run does it free the objects. A program may bring
finalizers of its own, so what they do is a parameter here.

* `Heap.sweepBy`, `Heap.collectBy` — sweep and collection with any finalizers.
* `Heap.Retouched` — what running finalizers leaves as it is.
* `Heap.departures` — the objects that a sweep frees, each with its finalizers.
* `Heap.sweepBy_eq` — a sweep performs the disposals that these stand for, and closes the books.
* `Heap.getElem?_sweepBy` — the cells after a sweep.
-/

namespace ObjectMachine

/-- What each finalizer makes of an object, and what it notes, oldest first. -/
abbrev Finalizers := DtorFn → Obj → Obj × List String

namespace Finalizers

/-- No finalizer alters a class. -/
def LeaveClasses (run : Finalizers) : Prop :=
  ∀ f k c, (run f ⟨k, .cls c⟩).1.payload = .cls c

/-- No finalizer makes a class of something else. -/
def MakeNoClass (run : Finalizers) : Prop :=
  ∀ f o c, (run f o).1.payload = .cls c → ∃ d, o.payload = .cls d

end Finalizers

namespace DtorFn

/-- The machine's own finalizers. -/
def finalizers : Finalizers := fun f o =>
  ({ o with payload := (f.run o.payload).1 }, (f.run o.payload).2)

theorem finalizers_leaveClasses : finalizers.LeaveClasses := by
  intro f k c
  cases f <;> rfl

theorem finalizers_makeNoClass : finalizers.MakeNoClass := by
  intro f o c h
  obtain ⟨k, p⟩ := o
  cases f with
  | note tag => exact ⟨c, h⟩
  | task => cases p <;> first | exact ⟨_, rfl⟩ | cases h

end DtorFn

namespace Heap

/-- The object in a cell. -/
def objAt (h : Heap) (i : Nat) : Option Obj :=
  h.cells[i]?.bind Cell.obj

/-- The reference of the object in a cell. -/
def refAt (h : Heap) (i : Nat) : Ref :=
  ⟨h.id, i, (h.cells[i]?.map Cell.generation).getD 0⟩

/-- The finalizers for the object in a cell. -/
def dtorsAt (h : Heap) (i : Nat) : List DtorFn :=
  match h.objAt i with
  | some o => h.dtorsFrom (h.cells.size + 1) o.cls
  | none => []

/-- Runs a finalizer on the object in a cell. -/
def runOn (run : Finalizers) (h : Heap) (i : Nat) (f : DtorFn) : Heap :=
  match h.objAt i with
  | some o =>
    { h with
      cells := h.cells.modify i (Cell.alter fun o => (run f o).1)
      notes := (run f o).2.reverse ++ h.notes }
  | none => h

/-- Runs the finalizers of one object. -/
def finalizeBy (run : Finalizers) (h : Heap) (i : Nat) : Heap :=
  (h.dtorsAt i).foldl (fun h f => h.runOn run i f) h

/-- Closes the books on a sweep that has freed some objects. -/
def settle (h : Heap) (freed : Nat) : Heap :=
  { h with
    free := h.emptyCells
    live := h.live - freed
    allocated := 0
    collections := h.collections + 1
    freedLast := freed
    freedTotal := h.freedTotal + freed
    threshold := nextThreshold h.growth h.minThreshold (h.live - freed) }

/-- Finalizes and frees every object without a mark; answers how many there were. -/
def sweepBy (run : Finalizers) (h : Heap) (marks : Marks) : Nat × Heap :=
  let dead := h.garbage marks
  (dead.length, (dead.foldl release (dead.foldl (finalizeBy run) h)).settle dead.length)

/-- A full collection that keeps what is reachable from the roots and from `extra`. -/
def collectBy (run : Finalizers) (h : Heap) (extra : List Ref) : Except Fatal (Nat × Heap) :=
  match h.marks extra with
  | .ok marks => .ok (h.sweepBy run marks)
  | .error e => .error e

theorem collectBy_ok {run : Finalizers} {h h' : Heap} {extra : List Ref} {freed : Nat}
    (hc : h.collectBy run extra = .ok (freed, h')) :
    ∃ marks, h.marks extra = .ok marks ∧ freed = (h.garbage marks).length ∧
      h' = (h.sweepBy run marks).2 := by
  unfold collectBy at hc
  cases hm : h.marks extra with
  | error e => rw [hm] at hc; cases hc
  | ok marks =>
    rw [hm] at hc
    have hpair := Except.ok.inj hc
    exact ⟨marks, rfl, (congrArg Prod.fst hpair).symm, (congrArg Prod.snd hpair).symm⟩

/-! ## The machine's own finalizers -/

theorem modify_alter_alter (cells : Array Cell) (i : Nat) (f g : Obj → Obj) :
    (cells.modify i (Cell.alter f)).modify i (Cell.alter g) =
      cells.modify i (Cell.alter (g ∘ f)) := by
  refine Array.ext_getElem? fun j => ?_
  simp only [Array.getElem?_modify]
  split <;> simp [Function.comp_def]

/-- Running finalizers one by one comes to the same as running them all on the payload. -/
theorem foldl_runOn (fs : List DtorFn) {h : Heap} {i : Nat} {o : Obj} (ho : h.objAt i = some o) :
    fs.foldl (fun h f => h.runOn DtorFn.finalizers i f) h =
      { h with
        cells := h.cells.modify i
          (Cell.alter fun o => { o with payload := (DtorFn.runAll fs o.payload).1 })
        notes := (DtorFn.runAll fs o.payload).2.reverse ++ h.notes } := by
  induction fs generalizing h o with
  | nil =>
    have hcells : h.cells.modify i (Cell.alter fun o => o) = h.cells := by
      refine Array.ext_getElem? fun j => ?_
      rw [Array.getElem?_modify]
      split <;> simp
    exact congrArg (fun cells => { h with cells := cells }) hcells.symm
  | cons f fs ih =>
    have hstep : h.runOn DtorFn.finalizers i f =
        { h with
          cells := h.cells.modify i (Cell.alter fun o => (DtorFn.finalizers f o).1)
          notes := (f.run o.payload).2.reverse ++ h.notes } := by
      simp only [runOn, ho]
      rfl
    have ho' : (h.runOn DtorFn.finalizers i f).objAt i = some (DtorFn.finalizers f o).1 := by
      obtain ⟨cell, hcell, hobj⟩ := Option.bind_eq_some_iff.mp ho
      simp [hstep, objAt, Array.getElem?_modify, hcell, Cell.alter, hobj]
    rw [List.foldl_cons, ih ho', hstep]
    simp only [modify_alter_alter, DtorFn.runAll, List.reverse_append, List.append_assoc]
    rfl

theorem finalizeBy_finalizers : finalizeBy DtorFn.finalizers = finalize := by
  funext h i
  unfold finalizeBy dtorsAt finalize
  cases hcell : h.cells[i]? with
  | none => simp [objAt, hcell]
  | some cell =>
    obtain ⟨g, o⟩ := cell
    cases o with
    | none => simp [objAt, hcell]
    | some o =>
      have ho : h.objAt i = some o := by simp [objAt, hcell]
      cases hd : h.dtorsFrom (h.cells.size + 1) o.cls with
      | nil => simp [ho, hd]
      | cons f fs =>
        simp only [ho, hd, foldl_runOn _ ho]
        congr 1
        refine Array.ext_getElem? fun j => ?_
        by_cases hj : i = j
        · subst hj; simp [Array.getElem?_modify, hcell, Cell.alter]
        · simp [Array.getElem?_modify, hj]

theorem sweepBy_finalizers (h : Heap) (marks : Marks) :
    h.sweepBy DtorFn.finalizers marks = h.sweep marks := by
  unfold sweepBy
  rw [finalizeBy_finalizers]
  rfl

theorem collectBy_finalizers (h : Heap) (extra : List Ref) :
    h.collectBy DtorFn.finalizers extra = h.collect extra := by
  unfold collectBy collect
  cases h.marks extra with
  | error e => rfl
  | ok marks => exact congrArg _ (h.sweepBy_finalizers marks)

/-! ## While finalizers run -/

section Finalizing

variable {run : Finalizers}

/-- What finalizers leave as it is: they give objects of the cells `dead` another form, and note
something. -/
structure Retouched (dead : List Nat) (h h' : Heap) : Prop where
  books : h' = { h with cells := h'.cells, notes := h'.notes }
  size : h'.cells.size = h.cells.size
  cell : ∀ j, ∃ g : Obj → Obj,
    h'.cells[j]? = (h.cells[j]?).map (Cell.alter g) ∧ (j ∉ dead → g = fun o => o)

namespace Retouched

variable {dead : List Nat} {h h' h'' : Heap}

theorem refl (dead : List Nat) (h : Heap) : Retouched dead h h :=
  ⟨rfl, rfl, fun _ => ⟨fun o => o, by simp, fun _ => rfl⟩⟩

theorem trans (ht : Retouched dead h h') (ht' : Retouched dead h' h'') :
    Retouched dead h h'' := by
  refine ⟨?_, ht'.size.trans ht.size, fun j => ?_⟩
  · rw [ht'.books, ht.books]
  · obtain ⟨f, hf, hdead⟩ := ht.cell j
    obtain ⟨g, hg, hdead'⟩ := ht'.cell j
    refine ⟨g ∘ f, by simp [hg, hf, Function.comp_def], fun hj => ?_⟩
    rw [hdead hj, hdead' hj]
    rfl

theorem id_eq (ht : Retouched dead h h') : h'.id = h.id :=
  (congrArg Heap.id ht.books :)

theorem generation (ht : Retouched dead h h') (j : Nat) :
    (h'.cells[j]?).map Cell.generation = (h.cells[j]?).map Cell.generation := by
  obtain ⟨g, hg, -⟩ := ht.cell j
  simp [hg, Function.comp_def, Cell.alter]

theorem refAt (ht : Retouched dead h h') (j : Nat) : h'.refAt j = h.refAt j := by
  simp only [Heap.refAt, ht.id_eq, ht.generation]

theorem same (ht : Retouched dead h h') {j : Nat} (hj : j ∉ dead) :
    h'.cells[j]? = h.cells[j]? := by
  obtain ⟨g, hg, hdead⟩ := ht.cell j
  simp [hg, hdead hj]

theorem contains (ht : Retouched dead h h') (x : Ref) : h'.contains x = h.contains x := by
  obtain ⟨g, hg, -⟩ := ht.cell x.cell
  rw [Bool.eq_iff_iff, contains_iff, contains_iff, get_of_alter ht.id_eq hg]
  cases h.get x <;> simp [Except.map]

end Retouched

theorem runOn_id (h : Heap) (i : Nat) (f : DtorFn) : (h.runOn run i f).id = h.id := by
  unfold runOn
  split <;> rfl

theorem getElem?_runOn (h : Heap) (i : Nat) (f : DtorFn) (j : Nat) :
    (h.runOn run i f).cells[j]? =
      (h.cells[j]?).map (Cell.alter fun o => if i = j then (run f o).1 else o) := by
  unfold runOn
  cases ho : h.objAt i with
  | some o =>
    simp only [Array.getElem?_modify]
    split <;> simp
  | none =>
    by_cases hij : i = j
    · subst hij
      cases hcell : h.cells[i]? with
      | none => simp
      | some cell =>
        obtain ⟨g, o⟩ := cell
        obtain rfl : o = none := by simpa [objAt, hcell] using ho
        simp [Cell.alter]
    · simp [hij]

theorem get_runOn (run : Finalizers) (h : Heap) (i : Nat) (f : DtorFn) (x : Ref) :
    (h.runOn run i f).get x = (h.get x).map fun o => if i = x.cell then (run f o).1 else o :=
  get_of_alter (h.runOn_id i f) (h.getElem?_runOn i f x.cell)

theorem runOn_retouched (run : Finalizers) (h : Heap) {dead : List Nat} {i : Nat} (hi : i ∈ dead)
    (f : DtorFn) : Retouched dead h (h.runOn run i f) := by
  refine ⟨?_, ?_, fun j => ⟨_, h.getElem?_runOn i f j, fun hj => ?_⟩⟩
  · unfold runOn
    split <;> rfl
  · unfold runOn
    split <;> simp
  · have hne : i ≠ j := fun he => hj (he ▸ hi)
    simp [hne]

/-- What every run of a finalizer keeps, the finalizers of an object keep. -/
theorem finalizeBy_keeps {P : Heap → Prop} {h : Heap} {i : Nat}
    (hstep : ∀ h f, P h → P (h.runOn run i f)) (hp : P h) : P (h.finalizeBy run i) :=
  List.foldlRecOn _ _ hp fun h hp f _ => hstep h f hp

/-- What every run of a finalizer keeps, the finalizers of several objects keep. -/
theorem foldl_finalizeBy_keeps {P : Heap → Prop} {h : Heap} {dead : List Nat}
    (hstep : ∀ i ∈ dead, ∀ h f, P h → P (h.runOn run i f)) (hp : P h) :
    P (dead.foldl (finalizeBy run) h) :=
  List.foldlRecOn _ _ hp fun _ hp i hi => finalizeBy_keeps (hstep i hi) hp

theorem foldl_finalizeBy_retouched (run : Finalizers) (dead : List Nat) (h : Heap) :
    Retouched dead h (dead.foldl (finalizeBy run) h) :=
  foldl_finalizeBy_keeps (P := Retouched dead h)
    (fun _ hi h' f ht => ht.trans (runOn_retouched run h' hi f)) (.refl dead h)

/-! ### Classes -/

theorem cls_runOn (hrun : run.LeaveClasses) {h : Heap} (i : Nat) (f : DtorFn) {r : Ref} {c : Class}
    (hc : h.cls r = .ok c) : (h.runOn run i f).cls r = .ok c := by
  obtain ⟨k, hk⟩ := cls_eq_ok.mp hc
  have hget := get_runOn run h i f r
  rw [hk] at hget
  by_cases hi : i = r.cell
  · simp only [Except.map, if_pos hi] at hget
    simp [cls, payload, hget, hrun f k c]
  · simp only [Except.map, if_neg hi] at hget
    exact cls_eq_ok.mpr ⟨k, hget⟩

/-- Finalizers make no class of what a reference names: nothing is there, or they never do. -/
def NeverClass (run : Finalizers) (h : Heap) (x : Ref) : Prop :=
  h.contains x = true → run.MakeNoClass

theorem cls?_runOn_none {h : Heap} (i : Nat) (f : DtorFn) {r : Ref} (hnone : h.cls? r = none)
    (hr : h.NeverClass run r) : (h.runOn run i f).cls? r = none := by
  cases hc : (h.runOn run i f).cls? r with
  | none => rfl
  | some c =>
    exfalso
    obtain ⟨k, hk⟩ := cls_eq_ok.mp (cls?_eq_some.mp hc)
    rw [get_runOn] at hk
    cases ho : h.get r with
    | error e => rw [ho] at hk; cases hk
    | ok o =>
      obtain ⟨k', p⟩ := o
      -- the object was there before, and it was no class
      have hno : ∀ d, p ≠ .cls d := by
        rintro d rfl
        rw [cls?_eq_some.mpr (cls_eq_ok.mpr ⟨k', ho⟩)] at hnone
        cases hnone
      rw [ho] at hk
      have hk := Except.ok.inj hk
      by_cases hi : i = r.cell
      · simp only [if_pos hi] at hk
        obtain ⟨d, hd⟩ := hr (contains_of_get ho) f ⟨k', p⟩ c (by rw [hk])
        exact hno d hd
      · simp only [if_neg hi] at hk
        exact hno c (Obj.mk.inj hk).2

/-- A class chain is the same while finalizers run. -/
theorem Chain.runOn (hrun : run.LeaveClasses) {h : Heap} (i : Nat) (f : DtorFn) {r : Ref}
    {cs : List Class} (hl : h.Chain (h.NeverClass run) r cs) :
    (h.runOn run i f).Chain ((h.runOn run i f).NeverClass run) r cs := by
  have ht := runOn_retouched run h (List.mem_singleton_self i) f
  induction hl with
  | gone hnone hr =>
    refine .gone (cls?_runOn_none i f hnone hr) fun hlive => ?_
    rw [ht.contains] at hlive
    exact hr hlive
  | root hc hs => exact .root (cls_runOn hrun i f hc) hs
  | step hc hs _ ih => exact .step (cls_runOn hrun i f hc) hs ih

end Finalizing

/-! ## Freeing -/

/-- The cells `dead` are emptied, each a generation older; beside them, notes are all that may
differ. -/
structure Emptied (dead : List Nat) (h h' : Heap) : Prop where
  books : h' = { h with cells := h'.cells, notes := h'.notes }
  size : h'.cells.size = h.cells.size
  cell : ∀ j, h'.cells[j]? =
    if j ∈ dead then (h.cells[j]?).map fun cell => ⟨cell.generation + 1, none⟩ else h.cells[j]?

theorem foldl_release (dead : List Nat) (hd : dead.Nodup) (h : Heap) :
    Emptied dead h (dead.foldl release h) := by
  induction dead generalizing h with
  | nil => exact ⟨rfl, rfl, fun j => by simp⟩
  | cons i rest ih =>
    rw [List.nodup_cons] at hd
    obtain ⟨hbooks, hsize, hcell⟩ := ih hd.2 (h.release i)
    refine ⟨hbooks, hsize.trans (by simp [release]), fun j => ?_⟩
    rw [List.foldl_cons, hcell]
    simp only [release, Array.getElem?_modify]
    by_cases hji : i = j
    · subst hji; simp [hd.1]
    · by_cases hjr : j ∈ rest
      · simp [hji, hjr]
      · simp [hji, Ne.symm hji, hjr]

theorem mem_garbage {h : Heap} {marks : Marks} {i : Nat} :
    i ∈ h.garbage marks ↔ (h.objAt i).isSome = true ∧ marks.has i = false := by
  unfold garbage objAt
  rw [List.mem_filter, List.mem_range, Bool.and_eq_true, Bool.not_eq_true']
  cases hc : h.cells[i]? with
  | none => simp
  | some cell =>
    have hlt : i < h.cells.size := (Array.getElem?_eq_some_iff.mp hc).1
    simp [hlt]

theorem garbage_sorted (h : Heap) (marks : Marks) : (h.garbage marks).Pairwise (· < ·) :=
  List.pairwise_lt_range.filter _

theorem garbage_nodup (h : Heap) (marks : Marks) : (h.garbage marks).Nodup :=
  List.nodup_range.filter _

section Sweep

variable (run : Finalizers) (h : Heap) (marks : Marks)

/-- A heap in the midst of a sweep: the objects are freed, and the books are still open. -/
def swept : Heap :=
  (h.garbage marks).foldl release ((h.garbage marks).foldl (finalizeBy run) h)

theorem sweepBy_snd :
    (h.sweepBy run marks).2 = (h.swept run marks).settle (h.garbage marks).length := rfl

theorem swept_emptied : Emptied (h.garbage marks) h (h.swept run marks) := by
  have ht := foldl_finalizeBy_retouched run (h.garbage marks) h
  have hr := foldl_release (h.garbage marks) (h.garbage_nodup marks)
    ((h.garbage marks).foldl (finalizeBy run) h)
  refine ⟨?_, hr.size.trans ht.size, fun j => ?_⟩
  · unfold swept
    rw [hr.books, ht.books]
  · refine (hr.cell j).trans ?_
    by_cases hj : j ∈ h.garbage marks
    · obtain ⟨g, hg, -⟩ := ht.cell j
      simp [hj, hg, Cell.alter, Function.comp_def]
    · rw [if_neg hj, if_neg hj, ht.same hj]

theorem sweepBy_id : (h.sweepBy run marks).2.id = h.id :=
  (congrArg Heap.id (h.swept_emptied run marks).books :)

theorem getElem?_sweepBy (j : Nat) :
    (h.sweepBy run marks).2.cells[j]? =
      if j ∈ h.garbage marks then (h.cells[j]?).map fun cell => ⟨cell.generation + 1, none⟩
      else h.cells[j]? :=
  (h.swept_emptied run marks).cell j

/-- After a sweep a reference names what it named before, if that had a mark. -/
theorem get_sweepBy {r : Ref} {o : Obj} :
    (h.sweepBy run marks).2.get r = .ok o ↔ h.get r = .ok o ∧ r.cell ∉ h.garbage marks := by
  rw [get_eq_ok, get_eq_ok, sweepBy_id, getElem?_sweepBy]
  by_cases hr : r.cell ∈ h.garbage marks
  · simp only [hr, if_true, not_true, and_false, iff_false]
    rintro ⟨-, cell, hcell, -, hobj⟩
    obtain ⟨old, -, rfl⟩ := Option.map_eq_some_iff.mp hcell
    cases hobj
  · simp [hr]

theorem contains_sweepBy {r : Ref} :
    (h.sweepBy run marks).2.contains r = true ↔
      h.contains r = true ∧ r.cell ∉ h.garbage marks := by
  simp only [contains_iff, get_sweepBy, exists_and_right]

end Sweep

/-- A cell of the garbage holds an object. -/
theorem contains_refAt {h : Heap} {marks : Marks} {i : Nat} (hi : i ∈ h.garbage marks) :
    h.contains (h.refAt i) = true := by
  obtain ⟨o, ho⟩ := Option.isSome_iff_exists.mp (mem_garbage.mp hi).1
  obtain ⟨cell, hcell, hobj⟩ := Option.bind_eq_some_iff.mp ho
  exact contains_of_get (get_eq_ok.mpr ⟨rfl, cell, hcell, by simp [refAt, hcell], hobj⟩)

theorem refAt_cell {h : Heap} {r : Ref} (hr : h.contains r = true) : h.refAt r.cell = r := by
  obtain ⟨o, ho⟩ := contains_iff.mp hr
  obtain ⟨hid, cell, hcell, hgen, -⟩ := get_eq_ok.mp ho
  cases r
  simp_all [refAt]

/-! ## Disposals -/

/-- One thing that a sweep does to an object. -/
inductive Disposal where
  | finalize (r : Ref) (f : DtorFn)
  | free (r : Ref)
deriving DecidableEq

/-- The object that it is done to. -/
def Disposal.ref : Disposal → Ref
  | .finalize r _ => r
  | .free r => r

@[simp] theorem Disposal.ref_finalize (r : Ref) (f : DtorFn) :
    (Disposal.finalize r f).ref = r := rfl

@[simp] theorem Disposal.ref_free (r : Ref) : (Disposal.free r).ref = r := rfl

/-- Does it. -/
def perform (run : Finalizers) (h : Heap) : Disposal → Heap
  | .finalize r f => h.runOn run r.cell f
  | .free r => h.release r.cell

/-- An object that is freed, and the finalizers that are gathered for it. -/
structure Departure where
  ref : Ref
  finalizers : List DtorFn

namespace Departure

def finalizations (ds : List Departure) : List Disposal :=
  ds.flatMap fun d => d.finalizers.map (.finalize d.ref)

def frees (ds : List Departure) : List Disposal :=
  ds.map fun d => .free d.ref

/-- The finalizers of one object after another, and then all objects are freed. -/
def disposals (ds : List Departure) : List Disposal :=
  finalizations ds ++ frees ds

theorem mem_finalizations {ds : List Departure} {e : Disposal} (he : e ∈ finalizations ds) :
    ∃ d ∈ ds, ∃ f, e = .finalize d.ref f := by
  obtain ⟨d, hd, he⟩ := List.mem_flatMap.mp he
  obtain ⟨f, -, rfl⟩ := List.mem_map.mp he
  exact ⟨d, hd, f, rfl⟩

theorem mem_frees {ds : List Departure} {e : Disposal} (he : e ∈ frees ds) :
    ∃ d ∈ ds, e = .free d.ref := by
  obtain ⟨d, hd, rfl⟩ := List.mem_map.mp he
  exact ⟨d, hd, rfl⟩

/-- Nothing is done to an object that does not depart. -/
theorem ref_of_mem_disposals {ds : List Departure} {e : Disposal} (he : e ∈ disposals ds) :
    ∃ d ∈ ds, e.ref = d.ref := by
  rcases List.mem_append.mp he with he | he
  · obtain ⟨d, hd, f, rfl⟩ := mem_finalizations he
    exact ⟨d, hd, rfl⟩
  · obtain ⟨d, hd, rfl⟩ := mem_frees he
    exact ⟨d, hd, rfl⟩

theorem disposals_filter_none {ds : List Departure} {i : Nat} (hi : ∀ d ∈ ds, d.ref.cell ≠ i) :
    (disposals ds).filter (fun e => e.ref.cell = i) = [] := by
  rw [List.filter_eq_nil_iff]
  intro e he heq
  obtain ⟨d, hd, href⟩ := ref_of_mem_disposals he
  exact hi d hd (href ▸ of_decide_eq_true heq)

/-- What is done to an object that departs once: each finalizer in turn, and it is freed. -/
theorem disposals_filter {ds : List Departure} (hn : (ds.map fun d => d.ref.cell).Nodup)
    {d : Departure} (hd : d ∈ ds) :
    (disposals ds).filter (fun e => e.ref.cell = d.ref.cell) =
      d.finalizers.map (.finalize d.ref) ++ [.free d.ref] := by
  obtain ⟨before, after, rfl⟩ := List.append_of_mem hd
  rw [List.map_append, List.map_cons, List.nodup_append, List.nodup_cons] at hn
  obtain ⟨-, ⟨hafter, -⟩, hbefore⟩ := hn
  have hb : (disposals before).filter (fun e => e.ref.cell = d.ref.cell) = [] :=
    disposals_filter_none fun e he => hbefore _ (List.mem_map_of_mem he) _ List.mem_cons_self
  have ha : (disposals after).filter (fun e => e.ref.cell = d.ref.cell) = [] :=
    disposals_filter_none fun e he heq => hafter (heq ▸ List.mem_map_of_mem he)
  have hself : (d.finalizers.map (Disposal.finalize d.ref)).filter
      (fun e => e.ref.cell = d.ref.cell) = d.finalizers.map (.finalize d.ref) := by
    rw [List.filter_eq_self]
    intro e he
    obtain ⟨f, -, rfl⟩ := List.mem_map.mp he
    simp
  rw [disposals, List.filter_append, List.append_eq_nil_iff] at hb ha
  simp only [disposals, finalizations, frees, List.flatMap_append, List.flatMap_cons, List.map_append,
    List.map_cons, List.filter_append, List.filter_cons] at hb ha ⊢
  simp [hb, ha, hself]

end Departure

/-- The objects in the cells `dead`, each with the finalizers that are gathered for it after those
of the cells before have run. -/
def departuresOf (run : Finalizers) : Heap → List Nat → List Departure
  | _, [] => []
  | h, i :: rest => ⟨h.refAt i, h.dtorsAt i⟩ :: departuresOf run (h.finalizeBy run i) rest

/-- What a sweep frees. -/
def departures (run : Finalizers) (h : Heap) (marks : Marks) : List Departure :=
  departuresOf run h (h.garbage marks)

section Departures

variable {run : Finalizers}

theorem departuresOf_cells (run : Finalizers) (dead : List Nat) (h : Heap) :
    (departuresOf run h dead).map (fun d => d.ref.cell) = dead := by
  induction dead generalizing h with
  | nil => rfl
  | cons i rest ih => exact congrArg (i :: ·) (ih _)

theorem mem_departuresOf {dead : List Nat} (hn : dead.Nodup) {h : Heap} {d : Departure}
    (hd : d ∈ departuresOf run h dead) :
    d.ref = h.refAt d.ref.cell ∧ ∃ done : List Nat, d.ref.cell ∉ done ∧
      d.finalizers = (done.foldl (finalizeBy run) h).dtorsAt d.ref.cell := by
  induction dead generalizing h with
  | nil => cases hd
  | cons i rest ih =>
    rw [List.nodup_cons] at hn
    rcases List.mem_cons.mp hd with rfl | hd
    · exact ⟨rfl, [], List.not_mem_nil, rfl⟩
    · obtain ⟨href, done, hdone, hfs⟩ := ih hn.2 hd
      have hrest : d.ref.cell ∈ rest := by
        rw [← departuresOf_cells run rest (h.finalizeBy run i)]
        exact List.mem_map_of_mem hd
      have hne : d.ref.cell ≠ i := fun he => hn.1 (he ▸ hrest)
      have ht := foldl_finalizeBy_retouched run [i] h
      exact ⟨href.trans (ht.refAt _), i :: done, by simp [hne, hdone], hfs⟩

theorem foldl_perform_finalize (dead : List Nat) (h : Heap) :
    (Departure.finalizations (departuresOf run h dead)).foldl (perform run) h =
      dead.foldl (finalizeBy run) h := by
  induction dead generalizing h with
  | nil => rfl
  | cons i rest ih =>
    rw [departuresOf, Departure.finalizations, List.flatMap_cons, List.foldl_append, List.foldl_map]
    exact ih _

theorem foldl_perform_free (ds : List Departure) (h : Heap) :
    (Departure.frees ds).foldl (perform run) h =
      (ds.map fun d => d.ref.cell).foldl release h := by
  simp only [Departure.frees, List.foldl_map, perform]

theorem departures_cells (run : Finalizers) (h : Heap) (marks : Marks) :
    (h.departures run marks).map (fun d => d.ref.cell) = h.garbage marks :=
  departuresOf_cells run (h.garbage marks) h

theorem departures_nodup (run : Finalizers) (h : Heap) (marks : Marks) :
    ((h.departures run marks).map fun d => d.ref.cell).Nodup := by
  rw [departures_cells]
  exact h.garbage_nodup marks

theorem departure_cell {h : Heap} {marks : Marks} {d : Departure}
    (hd : d ∈ h.departures run marks) : d.ref.cell ∈ h.garbage marks := by
  rw [← departures_cells run]
  exact List.mem_map_of_mem hd

theorem departure_ref {h : Heap} {marks : Marks} {d : Departure}
    (hd : d ∈ h.departures run marks) : d.ref = h.refAt d.ref.cell :=
  (mem_departuresOf (h.garbage_nodup marks) hd).1

/-- The object of every cell of the garbage departs. -/
theorem exists_departure (run : Finalizers) {h : Heap} {marks : Marks} {i : Nat}
    (hi : i ∈ h.garbage marks) : ∃ d ∈ h.departures run marks, d.ref = h.refAt i := by
  rw [← departures_cells run] at hi
  obtain ⟨d, hd, rfl⟩ := List.mem_map.mp hi
  exact ⟨d, hd, departure_ref hd⟩

/-- A sweep performs the disposals that its departures stand for, and closes the books. -/
theorem sweepBy_eq (run : Finalizers) (h : Heap) (marks : Marks) :
    h.sweepBy run marks =
      ((h.departures run marks).length,
        ((Departure.disposals (h.departures run marks)).foldl (perform run) h).settle
          (h.departures run marks).length) := by
  have hcells := departures_cells run h marks
  have hlength : (h.departures run marks).length = (h.garbage marks).length := by
    rw [← hcells, List.length_map]
  rw [hlength]
  refine Prod.ext rfl ?_
  rw [sweepBy_snd, swept, Departure.disposals, List.foldl_append, foldl_perform_free, hcells,
    departures, foldl_perform_finalize]

/-- What departs is what the sweep takes away. -/
theorem mem_departures {h : Heap} {marks : Marks} {r : Ref} :
    r ∈ (h.departures run marks).map Departure.ref ↔
      h.contains r = true ∧ (h.sweepBy run marks).2.contains r = false := by
  rw [Bool.eq_false_iff, Ne, contains_sweepBy, not_and, not_not]
  constructor
  · intro hr
    obtain ⟨d, hd, rfl⟩ := List.mem_map.mp hr
    have hcell := departure_cell hd
    exact ⟨departure_ref hd ▸ contains_refAt hcell, fun _ => hcell⟩
  · rintro ⟨hlive, hcell⟩
    obtain ⟨d, hd, href⟩ := exists_departure run (hcell hlive)
    exact List.mem_map.mpr ⟨d, hd, href.trans (refAt_cell hlive)⟩

/-- A departed object has had the finalizers of its class chain, although others ran before, and
although the classes of the chain may depart as well. -/
theorem departure_finalizers (hrun : run.LeaveClasses) {h : Heap} {marks : Marks} {d : Departure}
    (hd : d ∈ h.departures run marks) {o : Obj} {cs : List Class} (ho : h.get d.ref = .ok o)
    (hl : h.Chain (h.NeverClass run) o.cls cs) :
    d.finalizers = cs.flatMap fun c => c.slots.dtor.toList := by
  obtain ⟨-, done, hdone, hfs⟩ := mem_departuresOf (h.garbage_nodup marks) hd
  have ht := foldl_finalizeBy_retouched run done h
  have hl' : (done.foldl (finalizeBy run) h).Chain
      ((done.foldl (finalizeBy run) h).NeverClass run) o.cls cs :=
    foldl_finalizeBy_keeps (P := fun k => k.Chain (k.NeverClass run) o.cls cs)
      (fun i _ k f hk => hk.runOn hrun i f) hl
  obtain ⟨-, cell, hcell, -, hobj⟩ := get_eq_ok.mp ho
  have hat : (done.foldl (finalizeBy run) h).objAt d.ref.cell = some o := by
    rw [objAt, ht.same hdone, hcell]
    exact hobj
  rw [hfs, dtorsAt, hat]
  exact hl'.dtorsFrom _ (Nat.le_succ_of_le hl'.length_le)

end Departures

end Heap
end ObjectMachine
