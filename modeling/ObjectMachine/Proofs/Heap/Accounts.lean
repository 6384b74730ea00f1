import ObjectMachine.Proofs.Heap.Histories

/-!
# ObjectMachine.Proofs.Heap.Accounts

The counters of a heap agree with its cells and with what has happened to it.

* `Heap.occupiedCells` — the cells with an object.
* `Heap.Accounted` — how counters, cells and log belong together.
* `Heap.Step.accounted`, `Heap.Runs.accounted` — every change keeps it so.
* `Heap.accounts_balance` — what follows for a heap at any time.
-/

namespace ObjectMachine
namespace Heap

/-- The cells with an object, lowest first. -/
def occupiedCells (h : Heap) : List Nat :=
  (List.range h.cells.size).filter fun i => (h.objAt i).isSome

theorem occupied_add_empty (h : Heap) :
    h.occupiedCells.length + h.emptyCells.length = h.cells.size := by
  have hempty : h.emptyCells =
      (List.range h.cells.size).filter fun i => !(h.objAt i).isSome := by
    refine List.filter_congr fun i hi => ?_
    rw [List.mem_range] at hi
    cases ho : h.cells[i].obj <;> simp [objAt, Array.getElem?_eq_getElem hi, ho]
  rw [hempty, occupiedCells, ← List.length_eq_length_filter_add, List.length_range]

theorem Alike.occupiedCells {h h' : Heap} (ha : Alike h h') :
    h'.occupiedCells = h.occupiedCells := by
  simp only [Heap.occupiedCells, ha.size, ha.objAt]

theorem Placed.occupiedCells {o : Obj} {h h' : Heap} (hp : Placed o h h') (ht : h.Tidy) :
    h'.occupiedCells.length = h.occupiedCells.length + 1 := by
  have hfree : h'.free = h.free.tail := (congrArg Heap.free hp.books :)
  have hbefore := h.occupied_add_empty
  have hafter := h'.occupied_add_empty
  rw [← ht.eq] at hbefore
  rw [← (hp.tidy ht).eq, hfree, hp.size] at hafter
  rcases ht.next_cases with ⟨rest, hf, hlt, -⟩ | ⟨hf, hsize⟩
  · rw [hf, List.tail_cons, Nat.max_eq_left hlt] at hafter
    rw [hf, List.length_cons] at hbefore
    omega
  · rw [hf, hsize] at hafter
    rw [hf] at hbefore
    simp at hafter hbefore
    omega

section Sweep

variable {run : Finalizers} {h : Heap} {marks : Marks}

theorem garbage_eq : h.garbage marks = h.occupiedCells.filter fun i => !marks.has i := by
  rw [occupiedCells, List.filter_filter]
  refine List.filter_congr fun i hi => ?_
  rw [List.mem_range] at hi
  simp [objAt, Array.getElem?_eq_getElem hi, Bool.and_comm]

variable (run h marks) in
/-- A sweep takes away as many objects as it says. -/
theorem occupiedCells_sweepBy :
    (h.sweepBy run marks).2.occupiedCells.length + (h.garbage marks).length =
      h.occupiedCells.length := by
  have hsize : (h.sweepBy run marks).2.cells.size = h.cells.size :=
    (h.swept_emptied run marks).size
  have hkept : (h.sweepBy run marks).2.occupiedCells = h.occupiedCells.filter marks.has := by
    rw [occupiedCells, occupiedCells, hsize, List.filter_filter]
    refine List.filter_congr fun i hi => ?_
    rw [objAt_sweepBy]
    cases hm : marks.has i <;> cases ho : h.objAt i <;> simp [mem_garbage, hm, ho]
  rw [hkept, garbage_eq, ← List.length_eq_length_filter_add]

end Sweep

/-! ## Counters -/

/-- How the counters of a heap belong to its cells and to what was logged. -/
structure Accounted (config : Config) (log : List Event) (h : Heap) : Prop where
  tidy : h.Tidy
  live : h.live = h.occupiedCells.length
  total : h.live + h.freedTotal = (issued log).length
  minThreshold : h.minThreshold = config.gcMinThreshold

theorem empty_accounted (id : Nat) (config : Config) : Accounted config [] (empty id config) :=
  ⟨empty_tidy id config, rfl, rfl, rfl⟩

theorem issued_done (ds : List Disposal) : issued (ds.map .done) = [] := by
  simp [issued, Event.made?]

section Change

variable {run : Finalizers} {config : Config} {log new : List Event} {h h' : Heap}

theorem Step.accounted (hs : Step run h new h') (ha : Accounted config log h) :
    Accounted config (log ++ new) h' := by
  have htidy := hs.tidy ha.tidy
  rcases hs.cases with ⟨rfl, hl⟩ | ⟨o, rfl, rfl⟩ | ⟨marks, rfl, rfl⟩
  · -- other payloads and roots
    have hlive : h'.live = h.live := (congrArg Heap.live hl.books :)
    have htotal : h'.freedTotal = h.freedTotal := (congrArg Heap.freedTotal hl.books :)
    have hleast : h'.minThreshold = h.minThreshold := (congrArg Heap.minThreshold hl.books :)
    refine ⟨htidy, ?_, ?_, hleast.trans ha.minThreshold⟩
    · rw [hlive, hl.occupiedCells, ha.live]
    · rw [hlive, htotal, List.append_nil, ha.total]
  · -- a new object
    have hp := (ha.tidy.place o).2
    have hlive : (h.place o).2.live = h.live + 1 := (congrArg Heap.live hp.books :)
    have htotal : (h.place o).2.freedTotal = h.freedTotal := (congrArg Heap.freedTotal hp.books :)
    have hleast : (h.place o).2.minThreshold = h.minThreshold :=
      (congrArg Heap.minThreshold hp.books :)
    refine ⟨htidy, ?_, ?_, hleast.trans ha.minThreshold⟩
    · rw [hlive, hp.occupiedCells ha.tidy, ha.live]
    · rw [hlive, htotal, issued_append, List.length_append, ← ha.total]
      exact Nat.add_right_comm _ _ _
  · -- the objects that departed
    have hsweep := h.swept_emptied run marks
    have hlive : (h.sweepBy run marks).2.live = h.live - (h.garbage marks).length :=
      (congrArg (fun k => k.live - (h.garbage marks).length) hsweep.books :)
    have htotal : (h.sweepBy run marks).2.freedTotal = h.freedTotal + (h.garbage marks).length :=
      (congrArg (fun k => k.freedTotal + (h.garbage marks).length) hsweep.books :)
    have hleast : (h.sweepBy run marks).2.minThreshold = h.minThreshold :=
      (congrArg Heap.minThreshold hsweep.books :)
    have hcount := occupiedCells_sweepBy run h marks
    rw [← ha.live] at hcount
    refine ⟨htidy, ?_, ?_, hleast.trans ha.minThreshold⟩
    · omega
    · rw [hlive, htotal, issued_append, issued_done, List.append_nil, ← ha.total]
      omega

theorem Runs.accounted (hr : Runs run h new h') (ha : Accounted config log h) :
    Accounted config (log ++ new) h' := by
  induction hr with
  | refl => rw [List.append_nil]; exact ha
  | tail _ hs ih => rw [← List.append_assoc]; exact hs.accounted ih

/-- How far a change can bring a heap towards the next collection. -/
theorem Step.allocations (hs : Step run h new h') (ht : h.Tidy) :
    h'.minThreshold = h.minThreshold ∧ h'.allocated ≤ h.allocated + (issued new).length ∧
      (h.minThreshold ≤ h.threshold → h.minThreshold ≤ h'.threshold) := by
  rcases hs.cases with ⟨rfl, hl⟩ | ⟨o, rfl, rfl⟩ | ⟨marks, rfl, rfl⟩
  · have hallocated : h'.allocated = h.allocated := (congrArg Heap.allocated hl.books :)
    have hthreshold : h'.threshold = h.threshold := (congrArg Heap.threshold hl.books :)
    exact ⟨(congrArg Heap.minThreshold hl.books :), hallocated.le, fun hle => hthreshold ▸ hle⟩
  · have hp := (ht.place o).2
    have hallocated : (h.place o).2.allocated = h.allocated + 1 :=
      (congrArg Heap.allocated hp.books :)
    have hthreshold : (h.place o).2.threshold = h.threshold := (congrArg Heap.threshold hp.books :)
    exact ⟨(congrArg Heap.minThreshold hp.books :), hallocated.le, fun hle => hthreshold ▸ hle⟩
  · have hsweep := h.swept_emptied run marks
    have hleast : (h.swept run marks).minThreshold = h.minThreshold :=
      (congrArg Heap.minThreshold hsweep.books :)
    refine ⟨hleast, Nat.zero_le _, fun _ => ?_⟩
    rw [← hleast]
    exact Nat.le_max_right _ _

theorem Runs.allocations (hr : Runs run h log h') (ht : h.Tidy) :
    h'.minThreshold = h.minThreshold ∧ h'.allocated ≤ h.allocated + (issued log).length ∧
      (h.minThreshold ≤ h.threshold → h.minThreshold ≤ h'.threshold) := by
  induction hr with
  | refl => exact ⟨rfl, Nat.le_refl _, fun hle => hle⟩
  | tail hr hs ih =>
    obtain ⟨hleast, hallocated, hthreshold⟩ := ih
    obtain ⟨hleast', hallocated', hthreshold'⟩ := hs.allocations (hr.tidy ht)
    refine ⟨hleast'.trans hleast, ?_, fun hle => ?_⟩
    · rw [issued_append, List.length_append]
      omega
    · rw [hleast] at hthreshold'
      exact hthreshold' (hthreshold hle)

end Change

/-- The accounts of a heap at any time of its history. The live objects are counted right; the free
list has the empty cells, lowest first, and an allocation takes the lowest; the objects that are
there and those that were freed make up all that were ever allocated. A collection frees no more
objects than there are and starts counting allocations anew; until one is due again, there are at
least as many allocations as the configured minimum. -/
theorem accounts_balance {run : Finalizers} {id : Nat} {config : Config} {log : List Event}
    {h : Heap} (hr : Runs run (empty id config) log h) :
    h.live = h.occupiedCells.length ∧
      (h.free.Pairwise (· < ·) ∧ ∀ i, i ∈ h.free ↔ i < h.cells.size ∧ h.objAt i = none) ∧
      (∀ cls p r h', h.alloc cls p = .ok (r, h') →
        IsLeast {i | i = h.cells.size ∨ i < h.cells.size ∧ h.objAt i = none} r.cell) ∧
      h.live + h.freedTotal = (issued log).length ∧
      ∀ extra freed h', h.collectBy run extra = .ok (freed, h') →
        freed ≤ h.live ∧ h'.live + freed = h.live ∧ h'.allocated = 0 ∧
          config.gcMinThreshold ≤ h'.threshold ∧
          ∀ log' h'', Runs run h' log' h'' → h''.shouldCollect = true →
            config.gcMinThreshold ≤ (issued log').length := by
  have ha : Accounted config log h := hr.accounted (empty_accounted id config)
  refine ⟨ha.live, ⟨?_, fun i => ?_⟩, ?_, ha.total, ?_⟩
  · rw [ha.tidy.eq]
    exact h.emptyCells_sorted
  · rw [ha.tidy.eq, mem_emptyCells]
  · intro cls p r h' halloc
    obtain ⟨rfl, -⟩ := alloc_ok halloc
    rw [(ha.tidy.place _).1]
    exact ha.tidy.next_least
  · intro extra freed h' hcollect
    obtain ⟨marks, hmarks, rfl, rfl⟩ := collectBy_ok hcollect
    have hs : Step run h _ (h.sweepBy run marks).2 := .collect hmarks
    have ha' := hs.accounted ha
    have hcount := occupiedCells_sweepBy run h marks
    rw [← ha.live, ← ha'.live] at hcount
    have hthreshold : (h.sweepBy run marks).2.minThreshold ≤ (h.sweepBy run marks).2.threshold :=
      Nat.le_max_right _ _
    refine ⟨hcount ▸ Nat.le_add_left _ _, hcount, rfl, ha'.minThreshold ▸ hthreshold, ?_⟩
    intro log' h'' hr' hdue
    obtain ⟨-, hallocated, hleast⟩ := hr'.allocations ha'.tidy
    have hdue : h''.threshold ≤ h''.allocated := of_decide_eq_true hdue
    have hnone : (h.sweepBy run marks).2.allocated = 0 := rfl
    calc config.gcMinThreshold
        = (h.sweepBy run marks).2.minThreshold := ha'.minThreshold.symm
      _ ≤ h''.threshold := hleast hthreshold
      _ ≤ h''.allocated := hdue
      _ ≤ (issued log').length := by rw [hnone, Nat.zero_add] at hallocated; exact hallocated

/-- Of twenty objects a collection takes one. Its cell is the next to be used, and another
collection is not due before as many allocations as the default minimum. -/
theorem accounts_balance_reclaimed :
    ∃ log, Runs DtorFn.finalizers (empty 0 {}) log littered ∧ (issued log).length = 20 ∧
      littered.collectBy DtorFn.finalizers [] = .ok (1, reclaimed) ∧
      reclaimed.live + 1 = littered.live ∧ reclaimed.allocated = 0 ∧
      (∀ i, i ∈ reclaimed.free ↔ i < 20 ∧ reclaimed.objAt i = none) ∧
      ∀ log' h'', Runs DtorFn.finalizers reclaimed log' h'' → h''.shouldCollect = true →
        ({} : Config).gcMinThreshold ≤ (issued log').length := by
  obtain ⟨log, hr, -, hr'⟩ := reclaimed_runs
  have hcollect : littered.collectBy DtorFn.finalizers [] = .ok (1, reclaimed) := by
    have hcount : (littered.garbage builtinMarks).length = 1 := by decide +kernel
    unfold collectBy
    rw [littered_marks, ← hcount]
    rfl
  have hbooks : littered.live = 20 ∧ littered.freedTotal = 0 ∧ reclaimed.cells.size = 20 := by
    decide +kernel
  obtain ⟨hlive, htotal, hsize⟩ := hbooks
  obtain ⟨-, -, -, hissued, hfreed⟩ := accounts_balance hr
  obtain ⟨-, hless, hnone, -, hdue⟩ := hfreed [] 1 reclaimed hcollect
  obtain ⟨-, ⟨-, hempty⟩, -⟩ := accounts_balance (hr.trans hr')
  rw [hlive, htotal] at hissued
  rw [hsize] at hempty
  exact ⟨_, hr, hissued.symm, hcollect, hless, hnone, hempty, hdue⟩

end Heap
end ObjectMachine
