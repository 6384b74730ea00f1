import ObjectMachine.Proofs.Heap.Lineage
import Mathlib.Data.Finset.Card

/-!
# ObjectMachine.Proofs.Heap.Marking

Marking reaches what is reachable, and nothing else.

* `Heap.Edge` — an object leads to its class, and to what a tracing function of its class chain
  reports.
* `Heap.Reachable` — what can be reached from some roots along edges.
* `Heap.Traceable` — what a collection needs: the roots name objects, edges lead to objects, and
  every object has a class chain.
* `Heap.Marking` — the invariant of the worklist: a marked object leads only to marked objects and
  to such as are still in the list.
* `Heap.marks_exact` — the cells that are marked in the end are those of the reachable objects.
-/

namespace ObjectMachine
namespace Heap

/-- One step from an object to another. -/
inductive Edge (h : Heap) (r : Ref) : Ref → Prop where
  | cls {o : Obj} : h.get r = .ok o → Edge h r o.cls
  | traced {o : Obj} {cs : List Class} {c : Class} {f : MarkFn} {s : Ref} :
      h.get r = .ok o → h.Lineage o.cls cs → c ∈ cs → c.slots.mark = some f →
      s ∈ f.targets o.payload → Edge h r s

/-- What some roots lead to. -/
inductive Reachable (h : Heap) (roots : List Ref) : Ref → Prop where
  | root {r : Ref} : r ∈ roots → Reachable h roots r
  | edge {r s : Ref} : Reachable h roots r → h.Edge r s → Reachable h roots s

/-- Roots and edges lead to objects, and every object has a class chain. -/
structure Traceable (h : Heap) (roots : List Ref) : Prop where
  root_live : ∀ r ∈ roots, h.contains r = true
  edge_live : ∀ r s, h.Edge r s → h.contains s = true
  lineage : ∀ r o, h.get r = .ok o → ∃ cs, h.Lineage o.cls cs

/-- The objects in the order of their cells. -/
def objects (h : Heap) : List Obj :=
  h.cells.toList.filterMap Cell.obj

theorem mem_objects {h : Heap} {r : Ref} {o : Obj} (ho : h.get r = .ok o) : o ∈ h.objects := by
  obtain ⟨-, cell, hcell, -, hobj⟩ := get_eq_ok.mp ho
  refine List.mem_filterMap.mpr ⟨cell, ?_, hobj⟩
  rw [← Array.getElem?_toList] at hcell
  exact List.mem_of_getElem? hcell

/-- Every reference that an object holds names an object. -/
def Closed (h : Heap) : Prop :=
  ∀ r o, h.get r = .ok o →
    h.contains o.cls = true ∧ ∀ s ∈ o.payload.refs, h.contains s = true

theorem Closed.of_objects {h : Heap}
    (ho : ∀ o ∈ h.objects, h.contains o.cls = true ∧
      ∀ s ∈ o.payload.refs, h.contains s = true) : h.Closed :=
  fun _ o hr => ho o (mem_objects hr)

end Heap

theorem MarkFn.targets_subset (f : MarkFn) (p : Payload) : f.targets p ⊆ p.refs := by
  cases f <;> cases p <;> simp [MarkFn.targets, Payload.refs, Payload.markFn?]

namespace Heap

theorem Closed.edge_live {h : Heap} (hc : h.Closed) {r s : Ref} (he : h.Edge r s) :
    h.contains s = true := by
  cases he with
  | cls ho => exact (hc _ _ ho).1
  | traced ho _ _ _ hs => exact (hc _ _ ho).2 s (MarkFn.targets_subset _ _ hs)

theorem Reachable.live {h : Heap} {roots : List Ref} (ht : h.Traceable roots) {r : Ref}
    (hr : h.Reachable roots r) : h.contains r = true := by
  cases hr with
  | root hr => exact ht.root_live _ hr
  | edge _ he => exact ht.edge_live _ _ he

/-- What `edges` lists are the edges. -/
theorem mem_edges {h : Heap} {r : Ref} {o : Obj} {cs : List Class} (ho : h.get r = .ok o)
    (hl : h.Lineage o.cls cs) :
    ∃ targets, h.edges o = .ok targets ∧ ∀ s, s ∈ targets ↔ h.Edge r s := by
  refine ⟨_, by rw [edges, hl.markFns], fun s => ?_⟩
  simp only [List.mem_cons, List.mem_flatMap, List.mem_reverse, Option.mem_toList]
  constructor
  · rintro (rfl | ⟨f, ⟨c, hc, hf⟩, hs⟩)
    · exact .cls ho
    · exact .traced ho hl hc hf hs
  · intro he
    cases he with
    | cls ho' =>
      rw [ho] at ho'; cases ho'
      exact .inl rfl
    | traced ho' hl' hc hf hs =>
      rw [ho] at ho'; cases ho'
      rw [← hl.unique hl'] at hc
      exact .inr ⟨_, ⟨_, hc, hf⟩, hs⟩

/-- The invariant of marking, for the marks made and the worklist that is left. -/
structure Marking (h : Heap) (roots : List Ref) (marks : Marks) (gray : List Ref) : Prop where
  sound : ∀ r, h.contains r = true → marks.has r.cell = true → h.Reachable roots r
  gray_reachable : ∀ r ∈ gray, h.Reachable roots r
  roots_seen : ∀ r ∈ roots, marks.has r.cell = true ∨ r ∈ gray
  edges_seen : ∀ r s, h.contains r = true → marks.has r.cell = true → h.Edge r s →
    marks.has s.cell = true ∨ s ∈ gray

theorem Marking.start (h : Heap) {roots gray : List Ref} (hg : ∀ r, r ∈ gray ↔ r ∈ roots) :
    h.Marking roots {} gray where
  sound r _ hm := by simp at hm
  gray_reachable r hr := .root ((hg r).mp hr)
  roots_seen r hr := .inr ((hg r).mpr hr)
  edges_seen r s _ hm := by simp at hm

/-- The references that were passed over are marked, so the invariant holds without them. -/
theorem Marking.skip {h : Heap} {roots skipped gray : List Ref} {marks : Marks}
    (hm : h.Marking roots marks (skipped ++ gray))
    (hs : ∀ r ∈ skipped, marks.has r.cell = true) : h.Marking roots marks gray where
  sound := hm.sound
  gray_reachable r hr := hm.gray_reachable r (List.mem_append_right _ hr)
  roots_seen r hr := by
    rcases hm.roots_seen r hr with h | h
    · exact .inl h
    · rcases List.mem_append.mp h with h | h
      · exact .inl (hs r h)
      · exact .inr h
  edges_seen r s hr hmark he := by
    rcases hm.edges_seen r s hr hmark he with h | h
    · exact .inl h
    · rcases List.mem_append.mp h with h | h
      · exact .inl (hs s h)
      · exact .inr h

/-- One round: the object is marked, and the list goes on with what it leads to. -/
theorem Marking.visit {h : Heap} {roots rest targets : List Ref} {marks : Marks} {r : Ref}
    (hr : h.contains r = true) (hm : h.Marking roots marks (r :: rest))
    (htargets : ∀ s, s ∈ targets ↔ h.Edge r s) :
    h.Marking roots (marks.add r.cell) (targets.reverse ++ rest) where
  sound x hx hmark := by
    rw [Marks.has_add, Bool.or_eq_true, decide_eq_true_eq] at hmark
    rcases hmark with hc | hmark
    · rw [eq_of_cell_eq hx hr hc.symm]
      exact hm.gray_reachable r List.mem_cons_self
    · exact hm.sound x hx hmark
  gray_reachable x hx := by
    rcases List.mem_append.mp hx with hx | hx
    · exact .edge (hm.gray_reachable r List.mem_cons_self) ((htargets x).mp (List.mem_reverse.mp hx))
    · exact hm.gray_reachable x (List.mem_cons_of_mem _ hx)
  roots_seen x hx := by
    rw [Marks.has_add, Bool.or_eq_true, decide_eq_true_eq]
    rcases hm.roots_seen x hx with h | h
    · exact .inl (.inr h)
    · rcases List.mem_cons.mp h with rfl | h
      · exact .inl (.inl rfl)
      · exact .inr (List.mem_append_right _ h)
  edges_seen x s hx hmark he := by
    rw [Marks.has_add, Bool.or_eq_true, decide_eq_true_eq] at hmark ⊢
    rcases hmark with hc | hmark
    · rw [eq_of_cell_eq hx hr hc.symm] at he
      exact .inr (List.mem_append_left _ (List.mem_reverse.mpr ((htargets s).mpr he)))
    · rcases hm.edges_seen x s hx hmark he with h | h
      · exact .inl (.inr h)
      · rcases List.mem_cons.mp h with rfl | h
        · exact .inl (.inl rfl)
        · exact .inr (List.mem_append_right _ h)

/-- With an empty worklist the marks are exact. -/
theorem Marking.exact {h : Heap} {roots : List Ref} {marks : Marks} (ht : h.Traceable roots)
    (hm : h.Marking roots marks []) {r : Ref} (hr : h.contains r = true) :
    marks.has r.cell = true ↔ h.Reachable roots r := by
  refine ⟨hm.sound r hr, fun hreach => ?_⟩
  clear hr
  induction hreach with
  | root hr => simpa using hm.roots_seen _ hr
  | edge hr he ih => simpa using hm.edges_seen _ _ (hr.live ht) ih he

theorem nextUnmarked_cases {h : Heap} (marks : Marks) (gray : List Ref)
    (hg : ∀ r ∈ gray, h.contains r = true) :
    (h.nextUnmarked marks gray = .ok none ∧ ∀ r ∈ gray, marks.has r.cell = true) ∨
      ∃ skipped r o rest, gray = skipped ++ r :: rest ∧
        h.nextUnmarked marks gray = .ok (some (r, o, rest)) ∧ h.get r = .ok o ∧
        marks.has r.cell = false ∧ ∀ x ∈ skipped, marks.has x.cell = true := by
  induction gray with
  | nil => exact .inl ⟨rfl, by simp⟩
  | cons r rest ih =>
    obtain ⟨o, ho⟩ := contains_iff.mp (hg r List.mem_cons_self)
    cases hmark : marks.has r.cell with
    | false => exact .inr ⟨[], r, o, rest, rfl, by simp [nextUnmarked, ho, hmark], ho, hmark, by simp⟩
    | true =>
      have hnext : h.nextUnmarked marks (r :: rest) = h.nextUnmarked marks rest := by
        simp [nextUnmarked, ho, hmark]
      rcases ih fun x hx => hg x (List.mem_cons_of_mem _ hx) with
        ⟨hnone, hall⟩ | ⟨skipped, x, p, rest', hsplit, hsome, hx, hun, hskip⟩
      · refine .inl ⟨hnext.trans hnone, ?_⟩
        intro x hx
        rcases List.mem_cons.mp hx with rfl | hx
        · exact hmark
        · exact hall x hx
      · refine .inr ⟨r :: skipped, x, p, rest', by rw [hsplit]; rfl, hnext.trans hsome, hx, hun, ?_⟩
        intro y hy
        rcases List.mem_cons.mp hy with rfl | hy
        · exact hmark
        · exact hskip y hy

/-- The cells without a mark. -/
def unmarked (h : Heap) (marks : Marks) : Finset Nat :=
  (Finset.range h.cells.size).filter fun i => marks.has i = false

theorem unmarked_add_lt {h : Heap} {marks : Marks} {i : Nat} (hi : i < h.cells.size)
    (hun : marks.has i = false) : (h.unmarked (marks.add i)).card < (h.unmarked marks).card := by
  apply Finset.card_lt_card
  rw [Finset.ssubset_iff_of_subset]
  · exact ⟨i, by simp [unmarked, hi, hun], by simp [unmarked, Marks.has_add]⟩
  · intro j hj
    simp only [unmarked, Finset.mem_filter, Marks.has_add, Bool.or_eq_false_iff] at hj ⊢
    exact ⟨hj.1, hj.2.2⟩

/-- The whole loop. Each round leaves fewer cells without a mark, so that the rounds suffice. -/
theorem markFrom_exact {h : Heap} {roots : List Ref} (ht : h.Traceable roots) :
    ∀ (rounds : Nat) (marks : Marks) (gray : List Ref), h.Marking roots marks gray →
      (h.unmarked marks).card ≤ rounds →
      ∃ marks', h.markFrom rounds marks gray = .ok marks' ∧ h.Marking roots marks' [] := by
  intro rounds
  induction rounds with
  | zero =>
    intro marks gray hm hrounds
    rcases nextUnmarked_cases marks gray fun r hr => (hm.gray_reachable r hr).live ht with
      ⟨hnone, hall⟩ | ⟨skipped, r, o, rest, rfl, -, ho, hun, -⟩
    · exact ⟨marks, by unfold markFrom; rw [hnone], Marking.skip (by simpa using hm) hall⟩
    · have hmem : r.cell ∈ h.unmarked marks := by
        simp [unmarked, hun, contains_cell_lt (contains_of_get ho)]
      rw [Finset.card_eq_zero.mp (Nat.le_zero.mp hrounds)] at hmem
      cases hmem
  | succ rounds ih =>
    intro marks gray hm hrounds
    rcases nextUnmarked_cases marks gray fun r hr => (hm.gray_reachable r hr).live ht with
      ⟨hnone, hall⟩ | ⟨skipped, r, o, rest, rfl, hsome, ho, hun, hskip⟩
    · exact ⟨marks, by unfold markFrom; rw [hnone], Marking.skip (by simpa using hm) hall⟩
    · obtain ⟨cs, hl⟩ := ht.lineage r o ho
      obtain ⟨targets, htargets, hmem⟩ := mem_edges ho hl
      have hr : h.contains r = true := contains_of_get ho
      have hlt := unmarked_add_lt (contains_cell_lt hr) hun
      obtain ⟨marks', hrun, hm'⟩ := ih (marks.add r.cell) (targets.reverse ++ rest)
        ((hm.skip hskip).visit hr hmem) (by omega)
      exact ⟨marks', by unfold markFrom; rw [hsome]; simpa [htargets] using hrun, hm'⟩

/-- Marking ends, with the cells of the reachable objects marked. -/
theorem marks_exact {h : Heap} {extra : List Ref} (ht : h.Traceable (h.roots ++ extra)) :
    ∃ marks, h.marks extra = .ok marks ∧
      ∀ r, h.contains r = true →
        (marks.has r.cell = true ↔ h.Reachable (h.roots ++ extra) r) := by
  have hstart : h.Marking (h.roots ++ extra) {} (extra.reverse ++ h.roots) :=
    Marking.start h fun r => by simp [or_comm]
  have hrounds : (h.unmarked {}).card ≤ h.cells.size := by simp [unmarked]
  obtain ⟨marks, hrun, hm⟩ := markFrom_exact ht h.cells.size {} _ hstart hrounds
  exact ⟨marks, hrun, fun r hr => hm.exact ht hr⟩

end Heap
end ObjectMachine
