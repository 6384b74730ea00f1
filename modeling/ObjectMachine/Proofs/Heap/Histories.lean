import ObjectMachine.Builtin
import ObjectMachine.Proofs.Heap.Sweeping
import Mathlib.Data.List.Sort
import Mathlib.Order.Bounds.Defs

/-!
# ObjectMachine.Proofs.Heap.Histories

What may happen to a heap from its beginning, with a log of the objects that come and go.

* `Heap.Step`, `Heap.Runs` — one change of a heap, and many, with what they log.
* `Heap.boot_runs`, `Vm.boot_runs` — a new heap with its built-in objects, and the heap of a new
  task, have a history of that kind.
* `Heap.Step.cases` — all that a change can do to cells and counters.
* `Heap.Tidy` — the free list has the empty cells, lowest first.
-/

namespace ObjectMachine
namespace Heap

/-- What is logged: an allocation, or what a sweep does to an object. -/
inductive Event where
  | made (r : Ref)
  | done (d : Disposal)
deriving DecidableEq

namespace Event

/-- The object that it is about. -/
def ref : Event → Ref
  | made r => r
  | done d => d.ref

def made? : Event → Option Ref
  | made r => some r
  | done _ => none

def freed? : Event → Option Ref
  | made _ | done (.finalize _ _) => none
  | done (.free r) => some r

end Event

/-- The references that allocations gave out, oldest first. -/
def issued (log : List Event) : List Ref := log.filterMap Event.made?

/-- The references to objects that were freed, oldest first. -/
def retired (log : List Event) : List Ref := log.filterMap Event.freed?

@[simp] theorem issued_append (log new : List Event) :
    issued (log ++ new) = issued log ++ issued new :=
  List.filterMap_append

@[simp] theorem retired_append (log new : List Event) :
    retired (log ++ new) = retired log ++ retired new :=
  List.filterMap_append

/-- One change of a heap, and what it logs. -/
inductive Step (run : Finalizers) : Heap → List Event → Heap → Prop where
  | alloc {h h' : Heap} {cls r : Ref} {p : Payload} :
      h.alloc cls p = .ok (r, h') → Step run h [.made r] h'
  | update (h : Heap) (r : Ref) (f : Payload → Payload) : Step run h [] (h.update r f)
  | addRoot {h h' : Heap} {r : Ref} : h.addRoot r = .ok h' → Step run h [] h'
  | removeRoot (h : Heap) (r : Ref) : Step run h [] (h.removeRoot r)
  | collect {h : Heap} {extra : List Ref} {marks : Marks} : h.marks extra = .ok marks →
      Step run h ((Departure.disposals (h.departures run marks)).map .done) (h.sweepBy run marks).2

/-- Any number of changes, and what they log in turn. -/
inductive Runs (run : Finalizers) : Heap → List Event → Heap → Prop where
  | refl (h : Heap) : Runs run h [] h
  | tail {h h' h'' : Heap} {log new : List Event} :
      Runs run h log h' → Step run h' new h'' → Runs run h (log ++ new) h''

namespace Runs

variable {run : Finalizers} {h h' h'' : Heap} {log log' new : List Event}

theorem single (hs : Step run h new h') : Runs run h new h' := .tail (.refl h) hs

theorem trans (hr : Runs run h log h') (hr' : Runs run h' log' h'') :
    Runs run h (log ++ log') h'' := by
  induction hr' with
  | refl => rw [List.append_nil]; exact hr
  | tail _ hs ih => rw [← List.append_assoc]; exact .tail ih hs

end Runs

/-! ## Beginnings -/

section Boot

variable (run : Finalizers)

variable {run} in
theorem place_step {h : Heap} {o : Obj} (ho : o.cls.heap = h.id) :
    Step run h [.made (h.place o).1] (h.place o).2 :=
  have halloc : h.alloc o.cls o.payload = .ok (h.place o) := by simp [alloc, checkOwn, ho]
  .alloc halloc

theorem roots_runs (rs : List Ref) {h : Heap} (hrs : ∀ r ∈ rs, r.heap = h.id) :
    Runs run h [] { h with roots := rs ++ h.roots } := by
  induction rs with
  | nil => exact .refl h
  | cons r rs ih =>
    refine .tail (ih fun s hs => hrs s (List.mem_cons_of_mem _ hs)) (.addRoot (r := r) ?_)
    simp [addRoot, checkOwn, hrs r List.mem_cons_self]

theorem placeAll_runs (os : List Obj) {h : Heap} (hos : ∀ o ∈ os, o.cls.heap = h.id) :
    (∃ log, Runs run h log (os.foldl (fun h o => (h.place o).2) h) ∧ retired log = []) ∧
      (os.foldl (fun h o => (h.place o).2) h).id = h.id ∧
      (os.foldl (fun h o => (h.place o).2) h).roots = h.roots := by
  induction os generalizing h with
  | nil => exact ⟨⟨[], .refl h, rfl⟩, rfl, rfl⟩
  | cons o os ih =>
    obtain ⟨⟨log, hr, hnone⟩, hid, hroots⟩ := ih (h := (h.place o).2) fun o' ho' => by
      rw [place_id]
      exact hos o' (List.mem_cons_of_mem _ ho')
    exact ⟨⟨_, (Runs.single (place_step (hos o List.mem_cons_self))).trans hr,
        (retired_append _ _).trans hnone⟩,
      hid.trans (place_id h o), hroots.trans (place_roots h o)⟩

/-- A new heap with its built-in objects has a history, in which nothing was freed. -/
theorem boot_runs (id : Nat) (config : Config) :
    ∃ log, Runs run (empty id config) log (boot id config) ∧ retired log = [] := by
  have hcls : ∀ o ∈ bootObjects id, o.cls.heap = id := by
    intro o ho
    simp only [bootObjects, List.mem_append, List.mem_map, List.mem_cons, List.not_mem_nil,
      or_false] at ho
    rcases ho with ⟨k, -, rfl⟩ | rfl | rfl | rfl <;> rfl
  have hperm : ∀ r ∈ permanentRoots id, r.heap = id := by
    intro r hr
    simp only [permanentRoots, List.mem_cons, List.mem_reverse, List.mem_map] at hr
    rcases hr with rfl | rfl | rfl | ⟨k, -, rfl⟩ <;> rfl
  obtain ⟨⟨log, hr, hnone⟩, hid, hroots⟩ := placeAll_runs run (bootObjects id)
    (h := empty id config) hcls
  refine ⟨log ++ [], hr.trans ?_, by rw [List.append_nil, hnone]⟩
  have hadd := roots_runs run (permanentRoots id)
    (h := (bootObjects id).foldl (fun h o => (h.place o).2) (empty id config))
    fun r hr => (hperm r hr).trans hid.symm
  rw [hroots] at hadd
  exact hadd

end Boot

/-- A new heap with an array that nothing holds. -/
def littered : Heap :=
  ((boot 0 {}).placeBuiltin .array (.array #[])).2

/-- The nineteen built-in objects. -/
def builtinMarks : Marks := ⟨#[0x7ffff]⟩

/-- What a collection leaves of it. -/
def reclaimed : Heap := (littered.sweepBy DtorFn.finalizers builtinMarks).2

theorem littered_marks : littered.marks [] = .ok builtinMarks := by
  have hwords : (littered.marks []).toOption.map Marks.words = some builtinMarks.words := by
    decide +kernel
  cases hm : littered.marks [] with
  | error e => rw [hm] at hwords; cases hwords
  | ok marks =>
    obtain ⟨words⟩ := marks
    rw [hm] at hwords
    obtain rfl : words = builtinMarks.words := Option.some.inj hwords
    rfl

/-- The array came last, and the collection frees it. -/
theorem reclaimed_runs :
    ∃ log, Runs DtorFn.finalizers (empty 0 {}) (log ++ [.made ⟨0, 19, 0⟩]) littered ∧
      retired log = [] ∧ Runs DtorFn.finalizers littered [.done (.free ⟨0, 19, 0⟩)] reclaimed := by
  obtain ⟨log, hr, hnone⟩ := boot_runs DtorFn.finalizers 0 {}
  have hclass : (Builtin.array.ref (boot 0 {}).id).heap = (boot 0 {}).id := rfl
  have hplace : ((boot 0 {}).placeBuiltin .array (.array #[])).1 = ⟨0, 19, 0⟩ := by decide +kernel
  have hdisposals : Departure.disposals (littered.departures DtorFn.finalizers builtinMarks) =
      [.free ⟨0, 19, 0⟩] := by decide +kernel
  have hmade : Runs DtorFn.finalizers (empty 0 {}) (log ++ [.made ⟨0, 19, 0⟩]) littered :=
    hplace ▸ .tail hr (place_step hclass)
  refine ⟨log, hmade, hnone, .single ?_⟩
  have hs : Step DtorFn.finalizers littered _ reclaimed := .collect littered_marks
  rw [hdisposals] at hs
  exact hs

/-! ## What a change can do -/

/-- A change of payloads and roots: the same cells are occupied, under the same references. -/
structure Alike (h h' : Heap) : Prop where
  books : h' = { h with cells := h'.cells, roots := h'.roots }
  size : h'.cells.size = h.cells.size
  cell : ∀ j : Nat, ∃ g : Obj → Obj, h'.cells[j]? = (h.cells[j]?).map (Cell.alter g)

theorem Alike.of_roots {h h' : Heap} (hbooks : h' = { h with roots := h'.roots }) : Alike h h' := by
  have hcells : h'.cells = h.cells := (congrArg Heap.cells hbooks :)
  refine ⟨?_, by rw [hcells], fun j => ⟨fun o => o, by simp [hcells]⟩⟩
  rw [hcells]
  exact hbooks

theorem update_alike (h : Heap) (r : Ref) (f : Payload → Payload) : Alike h (h.update r f) := by
  refine ⟨rfl, by simp [update], fun j => ?_⟩
  simp only [update, Array.getElem?_modify]
  split
  · exact ⟨fun o => { o with payload := f o.payload }, rfl⟩
  · exact ⟨fun o => o, by simp⟩

theorem alloc_ok {h h' : Heap} {cls r : Ref} {p : Payload} (ha : h.alloc cls p = .ok (r, h')) :
    r = (h.place ⟨cls, p⟩).1 ∧ h' = (h.place ⟨cls, p⟩).2 := by
  unfold alloc at ha
  split at ha
  · have hpair := Except.ok.inj ha
    exact ⟨(congrArg Prod.fst hpair).symm, (congrArg Prod.snd hpair).symm⟩
  · cases ha

/-- All that a change can do. -/
theorem Step.cases {run : Finalizers} {h h' : Heap} {new : List Event} (hs : Step run h new h') :
    (new = [] ∧ Alike h h') ∨
      (∃ o, new = [.made (h.place o).1] ∧ h' = (h.place o).2) ∨
      ∃ marks, new = (Departure.disposals (h.departures run marks)).map .done ∧
        h' = (h.sweepBy run marks).2 := by
  cases hs with
  | @alloc _ cls r p ha =>
    obtain ⟨rfl, rfl⟩ := alloc_ok ha
    exact .inr (.inl ⟨⟨cls, p⟩, rfl, rfl⟩)
  | update r f => exact .inl ⟨rfl, h.update_alike r f⟩
  | addRoot ha =>
    unfold Heap.addRoot at ha
    split at ha
    · exact .inl ⟨rfl, .of_roots (by rw [← Except.ok.inj ha])⟩
    · cases ha
  | removeRoot r => exact .inl ⟨rfl, .of_roots rfl⟩
  | collect hm => exact .inr (.inr ⟨_, rfl, rfl⟩)

/-! ## The free list -/

/-- The free list has the empty cells, lowest first. -/
structure Tidy (h : Heap) : Prop where
  eq : h.free = h.emptyCells

/-- The cell of the next object. -/
def next (h : Heap) : Nat := h.free.headD h.cells.size

theorem mem_emptyCells {h : Heap} {i : Nat} :
    i ∈ h.emptyCells ↔ i < h.cells.size ∧ h.objAt i = none := by
  unfold emptyCells objAt
  rw [List.mem_filter, List.mem_range]
  refine and_congr_right fun hi => ?_
  simp [Array.getElem?_eq_getElem hi]

theorem emptyCells_sorted (h : Heap) : h.emptyCells.Pairwise (· < ·) :=
  List.pairwise_lt_range.filter _

/-- A sorted list of the empty cells is the list of the empty cells. -/
theorem eq_emptyCells {h : Heap} {cells : List Nat} (hs : cells.Pairwise (· < ·))
    (hmem : ∀ i, i ∈ cells ↔ i < h.cells.size ∧ h.objAt i = none) : cells = h.emptyCells :=
  hs.eq_of_mem_iff h.emptyCells_sorted fun i => (hmem i).trans mem_emptyCells.symm

theorem Tidy.next_cases {h : Heap} (ht : h.Tidy) :
    (∃ rest, h.free = h.next :: rest ∧ h.next < h.cells.size ∧ h.objAt h.next = none ∧
      (∀ i ∈ rest, h.next < i) ∧ rest.Pairwise (· < ·)) ∨
      h.free = [] ∧ h.next = h.cells.size := by
  have hsorted := h.emptyCells_sorted
  rw [← ht.eq] at hsorted
  cases hf : h.free with
  | nil => exact .inr ⟨rfl, by simp [next, hf]⟩
  | cons c rest =>
    have hc : h.next = c := by simp [next, hf]
    have hmem : c ∈ h.emptyCells := by
      rw [← ht.eq, hf]
      exact List.mem_cons_self
    obtain ⟨hlt, hnone⟩ := mem_emptyCells.mp hmem
    rw [hf, List.pairwise_cons] at hsorted
    rw [hc]
    exact .inl ⟨rest, rfl, hlt, hnone, hsorted.1, hsorted.2⟩

theorem Tidy.vacant {h : Heap} (ht : h.Tidy) : h.objAt h.next = none := by
  rcases ht.next_cases with ⟨_, _, _, hnone, _⟩ | ⟨_, hsize⟩
  · exact hnone
  · simp [objAt, hsize]

/-- The lowest empty cell is taken, or a new one if there is none. -/
theorem Tidy.next_least {h : Heap} (ht : h.Tidy) :
    IsLeast {i | i = h.cells.size ∨ i < h.cells.size ∧ h.objAt i = none} h.next := by
  rcases ht.next_cases with ⟨rest, hf, hlt, hnone, hleast, -⟩ | ⟨hf, hsize⟩
  · refine ⟨.inr ⟨hlt, hnone⟩, ?_⟩
    rintro i (rfl | hi)
    · exact hlt.le
    · rw [← mem_emptyCells, ← ht.eq, hf] at hi
      rcases List.mem_cons.mp hi with rfl | hi
      · exact Nat.le_refl _
      · exact (hleast i hi).le
  · refine ⟨.inl hsize, ?_⟩
    rintro i (rfl | hi)
    · exact hsize.le
    · rw [← mem_emptyCells, ← ht.eq, hf] at hi
      cases hi

/-- What an allocation does. -/
structure Placed (o : Obj) (h h' : Heap) : Prop where
  books : h' = { h with
    cells := h'.cells, free := h.free.tail, live := h.live + 1, allocated := h.allocated + 1 }
  size : h'.cells.size = max h.cells.size (h.next + 1)
  cell : ∀ j : Nat, h'.cells[j]? =
    if j = h.next then some ⟨(h.refAt j).generation, some o⟩ else h.cells[j]?

theorem Tidy.place {h : Heap} (ht : h.Tidy) (o : Obj) :
    (h.place o).1 = h.refAt h.next ∧ Placed o h (h.place o).2 := by
  rcases ht.next_cases with ⟨rest, hf, hlt, -⟩ | ⟨hf, hsize⟩
  · simp only [Heap.place, hf]
    refine ⟨rfl, by simp [hf], by simp; omega, fun j => ?_⟩
    by_cases hj : j = h.next
    · subst hj
      simp [refAt, Array.getElem?_modify, Array.getElem?_eq_getElem hlt]
    · simp [Array.getElem?_modify, hj, Ne.symm hj]
  · simp only [Heap.place, hf]
    refine ⟨by simp [refAt, hsize], by simp [hf], by simp [hsize], fun j => ?_⟩
    rw [Array.getElem?_push, hsize]
    by_cases hj : j = h.cells.size
    · simp [hj, refAt]
    · simp [hj]

/-! ## Cells after a change -/

theorem Alike.objAt {h h' : Heap} (ha : Alike h h') (j : Nat) :
    (h'.objAt j).isSome = (h.objAt j).isSome := by
  obtain ⟨g, hg⟩ := ha.cell j
  simp only [Heap.objAt, hg]
  cases h.cells[j]? <;> simp [Cell.alter]

theorem Alike.refAt {h h' : Heap} (ha : Alike h h') (j : Nat) : h'.refAt j = h.refAt j := by
  obtain ⟨g, hg⟩ := ha.cell j
  have hid : h'.id = h.id := (congrArg Heap.id ha.books :)
  simp [Heap.refAt, hid, hg, Cell.alter, Function.comp_def]

theorem Placed.objAt {o : Obj} {h h' : Heap} (hp : Placed o h h') (j : Nat) :
    h'.objAt j = if j = h.next then some o else h.objAt j := by
  simp only [Heap.objAt, hp.cell]
  split <;> rfl

theorem Placed.refAt {o : Obj} {h h' : Heap} (hp : Placed o h h') (j : Nat) :
    h'.refAt j = h.refAt j := by
  have hid : h'.id = h.id := (congrArg Heap.id hp.books :)
  simp only [Heap.refAt, hid, hp.cell]
  split <;> simp

section Sweep

variable {run : Finalizers} {h : Heap} {marks : Marks}

theorem objAt_sweepBy (j : Nat) :
    (h.sweepBy run marks).2.objAt j = if j ∈ h.garbage marks then none else h.objAt j := by
  simp only [objAt, getElem?_sweepBy]
  split
  · cases h.cells[j]? <;> rfl
  · rfl

theorem refAt_sweepBy (j : Nat) :
    (h.sweepBy run marks).2.refAt j =
      if j ∈ h.garbage marks then ⟨h.id, j, (h.refAt j).generation + 1⟩ else h.refAt j := by
  simp only [refAt, sweepBy_id, getElem?_sweepBy]
  by_cases hj : j ∈ h.garbage marks
  · obtain ⟨o, ho⟩ := Option.isSome_iff_exists.mp (mem_garbage.mp hj).1
    obtain ⟨cell, hcell, -⟩ := Option.bind_eq_some_iff.mp ho
    simp [hj, hcell]
  · simp [hj]

end Sweep

theorem Alike.tidy {h h' : Heap} (ha : Alike h h') (ht : h.Tidy) : h'.Tidy := by
  have hfree : h'.free = h.free := (congrArg Heap.free ha.books :)
  refine ⟨?_⟩
  rw [hfree, ht.eq]
  refine eq_emptyCells h.emptyCells_sorted fun i => ?_
  rw [mem_emptyCells, ha.size, ← Option.not_isSome_iff_eq_none, ← Option.not_isSome_iff_eq_none,
    ha.objAt]

theorem Placed.tidy {o : Obj} {h h' : Heap} (hp : Placed o h h') (ht : h.Tidy) : h'.Tidy := by
  have hfree : h'.free = h.free.tail := (congrArg Heap.free hp.books :)
  refine ⟨?_⟩
  rw [hfree]
  rcases ht.next_cases with ⟨rest, hf, hlt, -, hleast, hsorted⟩ | ⟨hf, hsize⟩
  · refine eq_emptyCells (by simpa [hf] using hsorted) fun i => ?_
    have hempty : i ∈ h.next :: rest ↔ i < h.cells.size ∧ h.objAt i = none := by
      rw [← mem_emptyCells, ← ht.eq, hf]
    rw [hf, List.tail_cons, hp.size, hp.objAt, Nat.max_eq_left hlt]
    by_cases hi : i = h.next
    · subst hi
      simpa using fun hin => Nat.lt_irrefl _ (hleast _ hin)
    · rw [if_neg hi, ← hempty, List.mem_cons, or_iff_right hi]
  · refine eq_emptyCells (by simp [hf]) fun i => ?_
    have hnone : ¬ (i < h.cells.size ∧ h.objAt i = none) := by
      rw [← mem_emptyCells, ← ht.eq, hf]
      exact List.not_mem_nil
    rw [hf, hp.size, hp.objAt, hsize]
    by_cases hi : i = h.cells.size
    · simp [hi]
    · rw [if_neg hi, List.tail_nil]
      refine ⟨fun hin => absurd hin List.not_mem_nil, ?_⟩
      rintro ⟨hlt, hobj⟩
      exact absurd ⟨by omega, hobj⟩ hnone

/-- A change leaves a tidy heap tidy. -/
theorem Step.tidy {run : Finalizers} {h h' : Heap} {new : List Event} (hs : Step run h new h')
    (ht : h.Tidy) : h'.Tidy := by
  rcases hs.cases with ⟨-, ha⟩ | ⟨o, -, rfl⟩ | ⟨marks, -, rfl⟩
  · exact ha.tidy ht
  · exact (ht.place o).2.tidy ht
  · exact ⟨rfl⟩

theorem Runs.tidy {run : Finalizers} {h h' : Heap} {log : List Event} (hr : Runs run h log h')
    (ht : h.Tidy) : h'.Tidy := by
  induction hr with
  | refl => exact ht
  | tail _ hs ih => exact hs.tidy ih

theorem empty_tidy (id : Nat) (config : Config) : (empty id config).Tidy := ⟨rfl⟩

end Heap

/-- The heap of a new task has a history. -/
theorem Vm.boot_runs (run : Finalizers) (registry : Registry) (config : Config) (id : Nat)
    (task : TaskId) :
    ∃ log, Heap.Runs run (.empty id config) log (Vm.boot registry config id task).heap := by
  let P : Vm → Prop := fun vm => ∃ log, Heap.Runs run (.empty id config) log vm.heap
  have hmethod : ∀ vm (k : Builtin) (m : String × Native), P vm → P (vm.bootMethod k m.1 m.2) := by
    rintro vm k m ⟨log, hr⟩
    exact ⟨_, .tail (.tail hr (Heap.place_step rfl)) (.update _ _ _)⟩
  have hglobal : ∀ vm (g : String × Native), P vm → P (vm.bootGlobal g.1 g.2) := by
    rintro vm g ⟨log, hr⟩
    exact ⟨_, .tail hr (Heap.place_step rfl)⟩
  have hmethods : ∀ vm, P vm → P (Builtin.all.foldl
      (fun vm k => k.methods.foldl (fun vm m => vm.bootMethod k m.1 m.2) vm) vm) := fun vm hvm =>
    List.foldlRecOn (motive := P) _ _ hvm fun vm hvm k _ =>
      List.foldlRecOn (motive := P) _ _ hvm fun vm hvm m _ => hmethod vm k m hvm
  have hglobals : ∀ vm, P vm →
      P (Native.globals.foldl (fun vm g => vm.bootGlobal g.1 g.2) vm) := fun vm hvm =>
    List.foldlRecOn (motive := P) _ _ hvm fun vm hvm g _ => hglobal vm g hvm
  unfold Vm.boot
  extract_lets vm vm' vm''
  obtain ⟨log, hr, -⟩ := Heap.boot_runs run id config
  have hall : P vm'' := hglobals vm' (hmethods vm ⟨log, hr⟩)
  clear_value vm''
  split <;> exact hall

end ObjectMachine
