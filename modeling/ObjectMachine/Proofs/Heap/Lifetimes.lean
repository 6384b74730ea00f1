import ObjectMachine.Proofs.Heap.Histories
import Mathlib.Data.List.Nodup

/-!
# ObjectMachine.Proofs.Heap.Lifetimes

The objects that one cell holds, one after another.

Each life in a cell is the same: an object is made, its finalizers run, it is freed. The next one in
that cell has the next generation, so as long as generations do not come round again, no two objects
ever have the same reference.

* `Heap.lives` — what is logged of the past objects of a cell.
* `Heap.Chronicle` — the log of a cell: its past objects, and the one that is there.
* `Heap.Step.chronicle`, `Heap.Runs.chronicle` — it is so at any time.
* `Heap.finalizers_run_once` — what a collection does to the objects that it frees, and that nothing
  is done to an object a second time.
* `Heap.stale_references_caught` — a reference is good from the allocation of its object until the
  collection that frees it.
-/

namespace ObjectMachine
namespace Heap

/-- The reference of an object that came to a cell after `n` others. -/
def nth (id cell n : Nat) : Ref := ⟨id, cell, UInt32.ofNat n⟩

/-- What is logged of an object: it is made, finalizers run on it, and it is freed. -/
def life (r : Ref) (fs : List DtorFn) : List Event :=
  .made r :: (fs.map (Disposal.finalize r) ++ [Disposal.free r]).map .done

/-- What is logged of the past objects of a cell, given the finalizers of each. -/
def lives (id cell : Nat) (past : List (List DtorFn)) : List Event :=
  past.zipIdx.flatMap fun e => life (nth id cell e.2) e.1

/-- What is logged of the object that a cell holds. -/
def present (h : Heap) (i : Nat) : List Event :=
  if (h.objAt i).isSome then [.made (h.refAt i)] else []

/-- What is logged of a cell: the lives of its past objects, and how the present one's began. -/
structure Chronicle (log : List Event) (h : Heap) (i : Nat) (past : List (List DtorFn)) : Prop where
  logged : log.filter (fun e => e.ref.cell = i) = lives h.id i past ++ h.present i
  ref : h.refAt i = nth h.id i past.length

theorem lives_concat (id cell : Nat) (past : List (List DtorFn)) (fs : List DtorFn) :
    lives id cell (past ++ [fs]) = lives id cell past ++ life (nth id cell past.length) fs := by
  simp [lives, List.zipIdx_append]

section Change

variable {run : Finalizers} {h h' : Heap} {log new : List Event}

theorem empty_chronicle (id : Nat) (config : Config) (i : Nat) :
    Chronicle [] (empty id config) i [] :=
  ⟨rfl, rfl⟩

theorem Alike.chronicle (ha : Alike h h') {i : Nat} {past : List (List DtorFn)}
    (hc : Chronicle log h i past) : Chronicle log h' i past := by
  have hid : h'.id = h.id := (congrArg Heap.id ha.books :)
  refine ⟨?_, ?_⟩
  · rw [present, ha.objAt, ha.refAt, hid]
    exact hc.logged
  · rw [ha.refAt, hid]
    exact hc.ref

/-- A new object begins a life in its cell. -/
theorem Tidy.chronicle (ht : h.Tidy) (o : Obj) {i : Nat} {past : List (List DtorFn)}
    (hc : Chronicle log h i past) :
    Chronicle (log ++ [.made (h.place o).1]) (h.place o).2 i past := by
  obtain ⟨hr, hp⟩ := ht.place o
  have hid : (h.place o).2.id = h.id := place_id h o
  refine ⟨?_, by rw [hp.refAt, hid]; exact hc.ref⟩
  rw [List.filter_append, hc.logged, hid, present, present, hp.objAt, hp.refAt, hr,
    List.append_assoc]
  congr 1
  by_cases hi : i = h.next
  · subst hi
    simp [ht.vacant, Event.ref, refAt]
  · simp [hi, Ne.symm hi, Event.ref, refAt]

/-- A sweep ends the life of an object without mark, and does nothing to another. -/
theorem sweepBy_chronicle {marks : Marks} {i : Nat} {past : List (List DtorFn)}
    (hc : Chronicle log h i past) :
    ∃ past', Chronicle (log ++ (Departure.disposals (h.departures run marks)).map .done)
      (h.sweepBy run marks).2 i past' := by
  have hid : (h.sweepBy run marks).2.id = h.id := h.sweepBy_id run marks
  have hfilter : ((Departure.disposals (h.departures run marks)).map Event.done).filter
      (fun e => e.ref.cell = i) =
      ((Departure.disposals (h.departures run marks)).filter fun d => d.ref.cell = i).map .done :=
    List.filter_map
  by_cases hi : i ∈ h.garbage marks
  · obtain ⟨d, hd, href⟩ := exists_departure run hi
    have hdisposals := Departure.disposals_filter (departures_nodup run h marks) hd
    rw [show d.ref.cell = i from congrArg Ref.cell href] at hdisposals
    have hsome : (h.objAt i).isSome = true := (mem_garbage.mp hi).1
    refine ⟨past ++ [d.finalizers], ?_, ?_⟩
    · rw [List.filter_append, hfilter, hdisposals, hc.logged, hid, present, present, objAt_sweepBy,
        if_pos hi, if_pos hsome, lives_concat, href, hc.ref]
      simp [life]
    · rw [refAt_sweepBy, if_pos hi, hc.ref, hid, List.length_append]
      simp [nth, UInt32.ofNat_add]
  · have hnone : ∀ d ∈ h.departures run marks, d.ref.cell ≠ i := by
      rintro d hd rfl
      exact hi (departure_cell hd)
    refine ⟨past, ?_, ?_⟩
    · rw [List.filter_append, hfilter, Departure.disposals_filter_none hnone, hc.logged, hid, present,
        present, objAt_sweepBy, refAt_sweepBy, if_neg hi, if_neg hi]
      simp
    · rw [refAt_sweepBy, if_neg hi, hid]
      exact hc.ref

theorem Step.chronicle (hs : Step run h new h') (ht : h.Tidy) {i : Nat}
    {past : List (List DtorFn)} (hc : Chronicle log h i past) :
    ∃ past', Chronicle (log ++ new) h' i past' := by
  rcases hs.cases with ⟨rfl, ha⟩ | ⟨o, rfl, rfl⟩ | ⟨marks, rfl, rfl⟩
  · rw [List.append_nil]
    exact ⟨past, ha.chronicle hc⟩
  · exact ⟨past, ht.chronicle o hc⟩
  · exact sweepBy_chronicle hc

theorem Runs.chronicle (hr : Runs run h new h') (ht : h.Tidy) {i : Nat}
    {past : List (List DtorFn)} (hc : Chronicle log h i past) :
    ∃ past', Chronicle (log ++ new) h' i past' := by
  induction hr with
  | refl => exact ⟨past, by rw [List.append_nil]; exact hc⟩
  | tail hr hs ih =>
    obtain ⟨past', hc'⟩ := ih
    rw [← List.append_assoc]
    exact hs.chronicle (hr.tidy ht) hc'

end Change

/-! ## Finalizers -/

/-- What a collection does to the objects that it frees, the departing: it takes them in the order
of their cells, and runs on each the finalizers of its class chain; after all of these it frees
them. Nothing is done to another object. Super classes that go round in circles make no chain. -/
structure Collected (run : Finalizers) (h : Heap) (departing : List Departure) (h' : Heap) :
    Prop where
  ascending : (departing.map fun d => d.ref.cell).Pairwise (· < ·)
  freed : ∀ r, r ∈ departing.map Departure.ref ↔ h.contains r = true ∧ h'.contains r = false
  kept : ∀ r o, h'.get r = .ok o → h.get r = .ok o
  performed : h' = ((Departure.disposals departing).foldl (perform run) h).settle departing.length
  each : ∀ d ∈ departing, (Departure.disposals departing).filter (fun e => e.ref.cell = d.ref.cell) =
    d.finalizers.map (.finalize d.ref) ++ [.free d.ref]
  others : ∀ e ∈ Departure.disposals departing, e.ref ∈ departing.map Departure.ref
  chains : ∀ d ∈ departing, ∀ o cs, h.get d.ref = .ok o → h.Chain (h.NeverClass run) o.cls cs →
    d.finalizers = cs.flatMap fun c => c.slots.dtor.toList

theorem sweepBy_collected {run : Finalizers} (hrun : run.LeaveClasses) (h : Heap) (marks : Marks) :
    Collected run h (h.departures run marks) (h.sweepBy run marks).2 := by
  refine ⟨?_, fun r => mem_departures, fun r o ho => ((h.get_sweepBy run marks).mp ho).1,
    congrArg Prod.snd (sweepBy_eq run h marks), fun d hd => ?_, fun e he => ?_,
    fun d hd o cs ho hl => departure_finalizers hrun hd ho hl⟩
  · rw [departures_cells]
    exact h.garbage_sorted marks
  · exact Departure.disposals_filter (departures_nodup run h marks) hd
  · obtain ⟨d, hd, href⟩ := Departure.ref_of_mem_disposals he
    exact href ▸ List.mem_map_of_mem hd

/-- Finalizers run exactly once, provided that none of them alters a class. A collection runs those
of the class chain of each object that it frees, most derived class first, in the order of the cells
and before it frees any of them; and over the whole history of a heap what is logged of each cell is
one life after another, so that nothing is done to an object after that. -/
theorem finalizers_run_once {run : Finalizers} (hrun : run.LeaveClasses) :
    (∀ h extra freed h', h.collectBy run extra = .ok (freed, h') →
      ∃ marks, h.marks extra = .ok marks ∧ freed = (h.departures run marks).length ∧
        Collected run h (h.departures run marks) h') ∧
      ∀ id config log h, Runs run (empty id config) log h →
        ∀ i, ∃ past, Chronicle log h i past := by
  refine ⟨fun h extra freed h' hc => ?_, fun id config log h hr i => ?_⟩
  · obtain ⟨marks, hmarks, rfl, rfl⟩ := collectBy_ok hc
    refine ⟨marks, hmarks, ?_, sweepBy_collected hrun h marks⟩
    exact congrArg Prod.fst (sweepBy_eq run h marks)
  · exact hr.chronicle (empty_tidy id config) (empty_chronicle id config i)

/-- An instance of a derived class, which nothing holds, and neither does anything hold its classes.
They stand before it and have finalizers. -/
def mortal : Heap :=
  { empty 0 {} with
    cells := #[
      { obj := some ⟨⟨0, 0, 0⟩,
          .cls { name := "Class", super := none, size := 0, slots := { mark := some .cls } }⟩ },
      { obj := some ⟨⟨0, 0, 0⟩,
          .cls { name := "Base", super := none, size := 0,
                 slots := { dtor := some (.note "base") } }⟩ },
      { obj := some ⟨⟨0, 0, 0⟩,
          .cls { name := "Derived", super := some ⟨0, 1, 0⟩, size := 0,
                 slots := { dtor := some (.note "derived") } }⟩ },
      { obj := some ⟨⟨0, 2, 0⟩, .object #[]⟩ }]
    roots := [⟨0, 0, 0⟩]
    live := 4 }

/-- The classes die together with the instance, which is finalized all the same. -/
theorem finalizers_run_once_mortal :
    ∃ h', mortal.collect [] = .ok (3, h') ∧
      Collected DtorFn.finalizers mortal [⟨⟨0, 1, 0⟩, []⟩, ⟨⟨0, 2, 0⟩, []⟩,
        ⟨⟨0, 3, 0⟩, [.note "derived", .note "base"]⟩] h' := by
  obtain ⟨hcollect, -⟩ := finalizers_run_once DtorFn.finalizers_leaveClasses
  obtain ⟨h', hrun⟩ : ∃ h', mortal.collect [] = .ok (3, h') := ⟨_, rfl⟩
  refine ⟨h', hrun, ?_⟩
  rw [← collectBy_finalizers] at hrun
  obtain ⟨marks, hmarks, -, hc⟩ := hcollect mortal [] 3 h' hrun
  have hdeparting : mortal.departures DtorFn.finalizers marks = [⟨⟨0, 1, 0⟩, []⟩, ⟨⟨0, 2, 0⟩, []⟩,
      ⟨⟨0, 3, 0⟩, [.note "derived", .note "base"]⟩] := by
    obtain rfl := Except.ok.inj hmarks
    rfl
  rwa [hdeparting] at hc

/-! ## References that were given out -/

section Pick

variable {pick : Event → Option Ref}

/-- What events of a kind say about a cell is said by the events about that cell. -/
theorem filter_pick (hpick : ∀ e r, pick e = some r → e.ref = r) (log : List Event) (i : Nat) :
    (log.filterMap pick).filter (fun r => r.cell = i) =
      (log.filter fun e => e.ref.cell = i).filterMap pick := by
  rw [List.filter_filterMap, List.filterMap_filter]
  congr 1
  funext e
  cases he : pick e with
  | none => simp
  | some r => simp [Option.filter, hpick e r he]

/-- An event that comes once in a life comes once for each object. -/
theorem filterMap_lives (hlife : ∀ r fs, (life r fs).filterMap pick = [r]) (id cell : Nat)
    (past : List (List DtorFn)) :
    (lives id cell past).filterMap pick = (List.range past.length).map (nth id cell) := by
  have hsnd : past.zipIdx.map Prod.snd = List.range past.length := by
    rw [List.zipIdx_map_snd, List.range_eq_range']
  rw [lives, List.filterMap_flatMap]
  simp only [hlife]
  rw [← List.map_eq_flatMap, ← hsnd, List.map_map]
  rfl

end Pick

namespace Chronicle

variable {log : List Event} {h : Heap} {i : Nat} {past : List (List DtorFn)}

/-- The objects of a cell that were freed are the past ones. -/
theorem retired (hc : Chronicle log h i past) :
    (Heap.retired log).filter (fun r => r.cell = i) =
      (List.range past.length).map (nth h.id i) := by
  have hpresent : (h.present i).filterMap Event.freed? = [] := by
    unfold present
    split <;> rfl
  rw [Heap.retired, filter_pick, hc.logged, List.filterMap_append, filterMap_lives, hpresent,
    List.append_nil]
  · intro r fs
    simp [life, List.filterMap_cons, Event.freed?]
  · intro e r he
    cases e with
    | made => cases he
    | done d =>
      cases d with
      | finalize => cases he
      | free => exact Option.some.inj he

/-- The objects that were made in a cell are the past ones and the one that is there. -/
theorem issued (hc : Chronicle log h i past) :
    (Heap.issued log).filter (fun r => r.cell = i) =
      (List.range (past.length + (h.objAt i).toList.length)).map (nth h.id i) := by
  rw [Heap.issued, filter_pick, hc.logged, List.filterMap_append, filterMap_lives, present, hc.ref]
  · cases h.objAt i with
    | none => simp
    | some o => simp [Event.made?, List.range_succ]
  · intro r fs
    simp [life, Event.made?]
  · intro e r he
    cases e with
    | made => exact Option.some.inj he
    | done => cases he

end Chronicle

theorem nth_inj {id cell a b : Nat} (ha : a < UInt32.size) (hb : b < UInt32.size)
    (h : nth id cell a = nth id cell b) : a = b := by
  have hgen : UInt32.ofNat a = UInt32.ofNat b := congrArg Ref.generation h
  have hnat := congrArg UInt32.toNat hgen
  rwa [UInt32.toNat_ofNat_of_lt' ha, UInt32.toNat_ofNat_of_lt' hb] at hnat

theorem contains_iff_refAt {h : Heap} {r : Ref} :
    h.contains r = true ↔ h.refAt r.cell = r ∧ (h.objAt r.cell).isSome = true := by
  constructor
  · intro hr
    obtain ⟨o, ho⟩ := contains_iff.mp hr
    obtain ⟨-, cell, hcell, -, hobj⟩ := get_eq_ok.mp ho
    exact ⟨refAt_cell hr, by simp [objAt, hcell, hobj]⟩
  · rintro ⟨href, hsome⟩
    obtain ⟨o, ho⟩ := Option.isSome_iff_exists.mp hsome
    obtain ⟨cell, hcell, hobj⟩ := Option.bind_eq_some_iff.mp ho
    have hgen : cell.generation = r.generation := by
      rw [← href]
      simp [refAt, hcell]
    exact contains_of_get (get_eq_ok.mpr ⟨(congrArg Ref.heap href).symm, cell, hcell, hgen, hobj⟩)

/-- No cell was freed so often that its generations come round. -/
def Unwrapped (log : List Event) : Prop :=
  ∀ i, ((retired log).filter fun r => r.cell = i).length < UInt32.size

section History

variable {run : Finalizers} {id : Nat} {config : Config} {log : List Event} {h : Heap}

/-- At any time the log of a cell tells of one life after another. -/
theorem Runs.lifetimes (hr : Runs run (empty id config) log h) (i : Nat) :
    ∃ past, Chronicle log h i past :=
  hr.chronicle (empty_tidy id config) (empty_chronicle id config i)

theorem Runs.past (hr : Runs run (empty id config) log h) (hw : Unwrapped log) (i : Nat) :
    ∃ past, Chronicle log h i past ∧ past.length < UInt32.size := by
  obtain ⟨past, hc⟩ := hr.lifetimes i
  have hlt := hw i
  rw [hc.retired, List.length_map, List.length_range] at hlt
  exact ⟨past, hc, hlt⟩

/-- No reference is given out twice. -/
theorem Runs.issued_nodup (hr : Runs run (empty id config) log h) (hw : Unwrapped log) :
    (issued log).Nodup := by
  rw [List.nodup_iff_count_le_one]
  intro r
  obtain ⟨past, hc, hlt⟩ := hr.past hw r.cell
  have hone : (h.objAt r.cell).toList.length ≤ 1 := by cases h.objAt r.cell <;> simp
  have hcell : ((issued log).filter fun s => s.cell = r.cell).Nodup := by
    rw [hc.issued]
    refine List.nodup_range.map_on fun a ha b hb hab => ?_
    rw [List.mem_range] at ha hb
    exact nth_inj (by omega) (by omega) hab
  rw [← List.count_filter (p := fun s => s.cell = r.cell) (by simp)]
  exact List.nodup_iff_count_le_one.mp hcell r

/-- An object is there once it is made and until it is freed. -/
theorem Runs.contains_iff (hr : Runs run (empty id config) log h) (hw : Unwrapped log) (r : Ref) :
    h.contains r = true ↔ r ∈ issued log ∧ r ∉ retired log := by
  obtain ⟨past, hc, hlt⟩ := hr.past hw r.cell
  have hmade : r ∈ issued log ↔
      ∃ k < past.length + (h.objAt r.cell).toList.length, nth h.id r.cell k = r := by
    have hmem : r ∈ issued log ↔ r ∈ (issued log).filter fun s => s.cell = r.cell := by simp
    rw [hmem, hc.issued]
    simp
  have hfreed : r ∈ retired log ↔ ∃ k < past.length, nth h.id r.cell k = r := by
    have hmem : r ∈ retired log ↔ r ∈ (retired log).filter fun s => s.cell = r.cell := by simp
    rw [hmem, hc.retired]
    simp
  rw [contains_iff_refAt, hc.ref, hmade, hfreed]
  constructor
  · rintro ⟨href, hsome⟩
    obtain ⟨o, ho⟩ := Option.isSome_iff_exists.mp hsome
    refine ⟨⟨past.length, by simp [ho], href⟩, ?_⟩
    rintro ⟨k, hk, hkr⟩
    exact absurd (nth_inj (hk.trans hlt) hlt (hkr.trans href.symm)) hk.ne
  · rintro ⟨⟨k, hk, hkr⟩, hnot⟩
    have hle : past.length ≤ k := Nat.le_of_not_lt fun hk' => hnot ⟨k, hk', hkr⟩
    cases ho : h.objAt r.cell with
    | none =>
      rw [ho] at hk
      exact absurd hk (by simpa using hle)
    | some o =>
      rw [ho] at hk
      obtain rfl : k = past.length := by simp at hk; omega
      exact ⟨hkr, rfl⟩

/-- A reference to an object that was freed is of this heap. -/
theorem Runs.retired_heap (hr : Runs run (empty id config) log h) {r : Ref}
    (hmem : r ∈ retired log) : r.heap = h.id := by
  obtain ⟨past, hc⟩ := hr.lifetimes r.cell
  have hin : r ∈ (retired log).filter fun s => s.cell = r.cell := by simpa using hmem
  rw [hc.retired] at hin
  obtain ⟨k, -, hk⟩ := List.mem_map.mp hin
  exact (congrArg Ref.heap hk).symm

end History

theorem get_of_not_contains {h : Heap} {r : Ref} (hr : r.heap = h.id)
    (hgone : h.contains r = false) : h.get r = .error (.collected r) := by
  cases hg : h.get r with
  | ok o =>
    rw [contains_of_get hg] at hgone
    cases hgone
  | error e =>
    unfold get at hg
    rw [if_pos hr] at hg
    split at hg
    · cases hg
    · exact hg.symm

/-- Stale references are caught. Over any history, in two parts, in which no cell is freed so often
that its generations come round: no reference is given out twice; a reference names an object if and
only if it was given out and its object was not freed; a new reference is good at once; what is
there after the first part is there until the second frees it; and what the first part freed is
fatal to ask for ever after, whether its cell was used again or not. -/
theorem stale_references_caught {run : Finalizers} {id : Nat} {config : Config}
    {log log' : List Event} {h h' : Heap} (hr : Runs run (empty id config) log h)
    (hr' : Runs run h log' h') (hw : Unwrapped (log ++ log')) :
    (issued (log ++ log')).Nodup ∧
      (∀ r, h'.contains r = true ↔ r ∈ issued (log ++ log') ∧ r ∉ retired (log ++ log')) ∧
      (∀ cls p r k, h'.alloc cls p = .ok (r, k) →
        r ∉ issued (log ++ log') ∧ k.contains r = true) ∧
      (∀ r, h.contains r = true → (h'.contains r = true ↔ r ∉ retired log')) ∧
      ∀ r ∈ retired log, h'.contains r = false ∧ h'.get r = .error (.collected r) := by
  have hall := hr.trans hr'
  refine ⟨hall.issued_nodup hw, hall.contains_iff hw, ?_, fun r hlive => ?_, fun r hmem => ?_⟩
  · intro cls p r k ha
    have hw' : Unwrapped (log ++ log' ++ [.made r]) := by
      intro i
      rw [retired_append, show retired [.made r] = [] from rfl, List.append_nil]
      exact hw i
    have hnodup := (Runs.tail hall (.alloc ha)).issued_nodup hw'
    rw [issued_append, List.nodup_append] at hnodup
    refine ⟨fun hin => hnodup.2.2 r hin r List.mem_cons_self rfl, ?_⟩
    obtain ⟨rfl, rfl⟩ := alloc_ok ha
    obtain ⟨href, hp⟩ := (hall.tidy (empty_tidy id config)).place ⟨cls, p⟩
    rw [contains_iff_refAt, href, hp.refAt, hp.objAt]
    exact ⟨rfl, by simp [refAt]⟩
  · have hw₁ : Unwrapped log := by
      intro i
      have hlt := hw i
      rw [retired_append, List.filter_append, List.length_append] at hlt
      omega
    obtain ⟨hmade, hkept⟩ := (hr.contains_iff hw₁ r).mp hlive
    rw [hall.contains_iff hw, issued_append, retired_append, List.mem_append, List.mem_append]
    simp [hmade, hkept]
  · have hboth : r ∈ retired (log ++ log') := by
      rw [retired_append]
      exact List.mem_append_left _ hmem
    have hgone : h'.contains r = false := by
      rw [Bool.eq_false_iff, Ne, hall.contains_iff hw]
      exact fun hin => hin.2 hboth
    exact ⟨hgone, get_of_not_contains (hall.retired_heap hboth) hgone⟩

/-- Another array, in the cell of the one that was collected. -/
def reused : Ref × Heap := reclaimed.placeBuiltin .array (.array #[])

/-- The new array has another reference than the old one had, which is fatal to ask for. -/
theorem stale_references_caught_reused :
    ∃ r : Ref, littered.contains r = true ∧ reused.2.contains reused.1 = true ∧
      r.cell = reused.1.cell ∧ reused.2.contains r = false ∧
      reused.2.get r = .error (.collected r) := by
  obtain ⟨log, hr, hnone, hr'⟩ := reclaimed_runs
  have hnew : Runs DtorFn.finalizers reclaimed [.made reused.1] reused.2 := .single (place_step rfl)
  have hretired : retired (log ++ [.made ⟨0, 19, 0⟩] ++ [.done (.free ⟨0, 19, 0⟩)]) =
      [⟨0, 19, 0⟩] := by
    rw [retired_append, retired_append, hnone]
    rfl
  have hw : Unwrapped (log ++ [.made ⟨0, 19, 0⟩] ++ [.done (.free ⟨0, 19, 0⟩)] ++
      [.made reused.1]) := by
    intro i
    rw [retired_append, hretired]
    exact (List.length_filter_le _ _).trans_lt (by decide)
  obtain ⟨-, -, -, -, hgone⟩ := stale_references_caught (hr.trans hr') hnew hw
  obtain ⟨hgone, hfatal⟩ := hgone ⟨0, 19, 0⟩ (by rw [hretired]; exact List.mem_cons_self)
  have hcells : littered.contains ⟨0, 19, 0⟩ = true ∧ reused.2.contains reused.1 = true ∧
      reused.1.cell = 19 := by decide +kernel
  obtain ⟨hlive, hlive', hcell⟩ := hcells
  exact ⟨⟨0, 19, 0⟩, hlive, hlive', hcell.symm, hgone, hfatal⟩

end Heap
end ObjectMachine
