import ObjectMachine.Builtin
import ObjectMachine.Proofs.Heap.Exact

/-!
# ObjectMachine.Proofs.Heap.Sound

Heaps without dangling references, in which a collection loses nothing that is held.

The tracing function of an object's kind stands in its class chain. This holds of the built-in
classes, of their subclasses, and of instances of either, as long as the dispatch tables are the
built-in ones.

* `Heap.Sound` — the invariant.
* `Heap.Sound.place`, `Heap.Sound.update` — new objects and other contents keep it.
* `Heap.Sound.collect` — so does a collection, which cannot fail.
-/

namespace ObjectMachine

/-- The dispatch table of a built-in class, or of a class that was made later: then there is only
a display function. -/
def Slots.Standard (s : Slots) : Prop :=
  (∃ k : Builtin, s = k.slots) ∨ ∃ str, s = { str := str }

/-- A change of contents: the kind stays, and so does what decides where a class stands and what a
method does. -/
structure Payload.Mild (f : Payload → Payload) : Prop where
  markFn : ∀ p, (f p).markFn? = p.markFn?
  cls : ∀ c, ∃ d, f (.cls c) = .cls d ∧ d.super = c.super ∧ d.slots = c.slots
  method : ∀ m, f (.method m) = .method m

namespace Heap

/-- The chain of a class has the tracing function for a payload. -/
def Traces (h : Heap) (r : Ref) (p : Payload) : Prop :=
  ∃ cs, h.Lineage r cs ∧ ∀ f, p.markFn? = some f → ∃ c ∈ cs, c.slots.mark = some f

/-- No reference dangles, and tracing finds every reference. -/
structure Sound (h : Heap) : Prop where
  closed : h.Closed
  traces : ∀ r o, h.get r = .ok o → h.Traces o.cls o.payload
  lineage : ∀ r c, h.cls r = .ok c → ∃ cs, h.Lineage r cs
  slots : ∀ r c, h.cls r = .ok c → c.slots.Standard
  builtin : ∀ k : Builtin, ∃ c, h.cls (k.ref h.id) = .ok c ∧ c.slots = k.slots
  freeList : h.FreeList
  root_live : ∀ r ∈ h.roots, h.contains r = true
  rooted : ∀ r ∈ permanentRoots h.id, r ∈ h.roots

/-- What a new object needs: its class, what it holds and, for a class, its super class are there. -/
structure Admits (h : Heap) (k : Ref) (p : Payload) : Prop where
  traces : h.Traces k p
  refs : ∀ s ∈ p.refs, h.contains s = true
  cls : ∀ c, p = .cls c → c.slots.Standard ∧ ∀ s, c.super = some s → ∃ d, h.cls s = .ok d

/-- The classes of `h` are there in `h'`, with the same super classes and dispatch tables. -/
def KeepsClasses (h h' : Heap) : Prop :=
  ∀ x c, h.cls x = .ok c → ∃ d, h'.cls x = .ok d ∧ d.super = c.super ∧ d.slots = c.slots

theorem Traces.mono {h h' : Heap} (hk : h.KeepsClasses h') {r : Ref} {p : Payload}
    (ht : h.Traces r p) : h'.Traces r p := by
  obtain ⟨cs, hl, hmark⟩ := ht
  obtain ⟨cs', hl', hslots⟩ := hl.mono hk
  refine ⟨cs', hl', fun f hf => ?_⟩
  obtain ⟨c, hc, hm⟩ := hmark f hf
  have : c.slots ∈ cs'.map Class.slots := hslots ▸ List.mem_map_of_mem hc
  obtain ⟨d, hd, hds⟩ := List.mem_map.mp this
  exact ⟨d, hd, hds ▸ hm⟩

theorem Traces.cls {h : Heap} {r : Ref} {p : Payload} (ht : h.Traces r p) :
    ∃ c, h.cls r = .ok c := by
  obtain ⟨cs, hl, -⟩ := ht
  obtain ⟨c, rest, -, hc⟩ := hl.head
  exact ⟨c, hc⟩

theorem Sound.permanent_live {h : Heap} (hs : h.Sound) {r : Ref}
    (hr : r ∈ permanentRoots h.id) : h.contains r = true :=
  hs.root_live r (hs.rooted r hr)

/-! ## New objects -/

section Place

variable {h : Heap} {k : Ref} {p : Payload}

theorem get_place_of_get (hf : h.FreeList) (o : Obj) {r : Ref} {o' : Obj}
    (hr : h.get r = .ok o') : (h.place o).2.get r = .ok o' := by
  rw [get_place hf, if_neg, hr]
  rintro rfl
  have := place_fresh hf o
  rw [contains_of_get hr] at this
  cases this

theorem contains_place (hf : h.FreeList) (o : Obj) {r : Ref} (hr : h.contains r = true) :
    (h.place o).2.contains r = true := by
  obtain ⟨o', ho⟩ := contains_iff.mp hr
  exact contains_of_get (get_place_of_get hf o ho)

theorem place_keepsClasses (hf : h.FreeList) (o : Obj) : h.KeepsClasses (h.place o).2 := by
  intro x c hc
  obtain ⟨k', hk⟩ := cls_eq_ok.mp hc
  exact ⟨c, cls_eq_ok.mpr ⟨k', get_place_of_get hf o hk⟩, rfl, rfl⟩

/-- An object after an allocation is the new one, or was there before. -/
theorem get_place_cases (hf : h.FreeList) (o : Obj) {r : Ref} {o' : Obj}
    (hr : (h.place o).2.get r = .ok o') : r = (h.place o).1 ∧ o' = o ∨ h.get r = .ok o' := by
  rw [get_place hf] at hr
  split at hr
  · exact .inl ⟨‹_›, (Except.ok.inj hr).symm⟩
  · exact .inr hr

theorem Sound.place (hs : h.Sound) (ha : h.Admits k p) : (h.place ⟨k, p⟩).2.Sound := by
  have hf := hs.freeList
  have hkeep := place_keepsClasses hf ⟨k, p⟩
  have hlive := fun {r} => contains_place (r := r) hf ⟨k, p⟩
  obtain ⟨c, hc⟩ := ha.traces.cls
  refine ⟨?_, ?_, ?_, ?_, ?_, place_freeList hf _, ?_, ?_⟩
  · intro r o ho
    rcases get_place_cases hf ⟨k, p⟩ ho with ⟨-, rfl⟩ | ho
    · exact ⟨hlive (cls_contains hc), fun s hmem => hlive (ha.refs s hmem)⟩
    · exact ⟨hlive (hs.closed r o ho).1, fun s hmem => hlive ((hs.closed r o ho).2 s hmem)⟩
  · intro r o ho
    rcases get_place_cases hf ⟨k, p⟩ ho with ⟨-, rfl⟩ | ho
    · exact ha.traces.mono hkeep
    · exact (hs.traces r o ho).mono hkeep
  · intro r d hd
    obtain ⟨k', hg⟩ := cls_eq_ok.mp hd
    rcases get_place_cases hf ⟨k, p⟩ hg with ⟨rfl, heq⟩ | hg
    · -- a new class stands below the chain of its super class
      obtain ⟨rfl, rfl⟩ := Obj.mk.inj heq
      cases hsup : d.super with
      | none => exact ⟨[d], .root hd hsup⟩
      | some s =>
        obtain ⟨e, he⟩ := (ha.cls d rfl).2 s hsup
        obtain ⟨cs, hl⟩ := hs.lineage s e he
        obtain ⟨cs', hl', -⟩ := hl.mono hkeep
        exact ⟨d :: cs', .step hd hsup hl'⟩
    · obtain ⟨cs, hl⟩ := hs.lineage r d (cls_eq_ok.mpr ⟨k', hg⟩)
      obtain ⟨cs', hl', -⟩ := hl.mono hkeep
      exact ⟨cs', hl'⟩
  · intro r d hd
    obtain ⟨k', hg⟩ := cls_eq_ok.mp hd
    rcases get_place_cases hf ⟨k, p⟩ hg with ⟨-, heq⟩ | hg
    · obtain ⟨rfl, rfl⟩ := Obj.mk.inj heq
      exact (ha.cls d rfl).1
    · exact hs.slots r d (cls_eq_ok.mpr ⟨k', hg⟩)
  · intro b
    obtain ⟨d, hd, hslots⟩ := hs.builtin b
    obtain ⟨e, he, -, hslots'⟩ := hkeep _ d hd
    rw [place_id]
    exact ⟨e, he, hslots'.trans hslots⟩
  · intro r hr
    rw [place_roots] at hr
    exact hlive (hs.root_live r hr)
  · rw [place_id, place_roots]
    exact hs.rooted

end Place

/-! ## Other contents -/

section Update

variable {h : Heap} {r : Ref} {f : Payload → Payload}

theorem get_update_of_get {x : Ref} {o : Obj} (hx : h.get x = .ok o) :
    (h.update r f).get x =
      .ok (if r.cell = x.cell then { o with payload := f o.payload } else o) := by
  rw [get_update, hx]
  rfl

/-- An object after a change of contents was there before, with its class. -/
theorem get_update_cases {x : Ref} {o' : Obj} (hx : (h.update r f).get x = .ok o') :
    ∃ o, h.get x = .ok o ∧ o'.cls = o.cls ∧
      (o'.payload = o.payload ∨ r.cell = x.cell ∧ o'.payload = f o.payload) := by
  rw [get_update] at hx
  cases ho : h.get x with
  | error e => rw [ho] at hx; cases hx
  | ok o =>
    rw [ho] at hx
    obtain rfl := (Except.ok.inj hx).symm
    refine ⟨o, rfl, ?_⟩
    split
    · exact ⟨rfl, .inr ⟨‹_›, rfl⟩⟩
    · exact ⟨rfl, .inl rfl⟩

theorem contains_update {x : Ref} : (h.update r f).contains x = true ↔ h.contains x = true := by
  rw [contains_iff, contains_iff]
  constructor
  · rintro ⟨o', ho⟩
    obtain ⟨o, ho, -⟩ := get_update_cases ho
    exact ⟨o, ho⟩
  · rintro ⟨o, ho⟩
    exact ⟨_, get_update_of_get ho⟩

theorem update_keepsClasses (hf : Payload.Mild f) : h.KeepsClasses (h.update r f) := by
  intro x c hc
  obtain ⟨k, hg⟩ := cls_eq_ok.mp hc
  have hg' := get_update_of_get (r := r) (f := f) hg
  split at hg'
  · obtain ⟨d, hd, hsup, hslots⟩ := hf.cls c
    rw [hd] at hg'
    exact ⟨d, cls_eq_ok.mpr ⟨k, hg'⟩, hsup, hslots⟩
  · exact ⟨c, cls_eq_ok.mpr ⟨k, hg'⟩, rfl, rfl⟩

/-- A class after a change of contents was one before. -/
theorem update_cls_cases (hf : Payload.Mild f) {x : Ref} {d : Class}
    (hd : (h.update r f).cls x = .ok d) :
    ∃ c, h.cls x = .ok c ∧ d.super = c.super ∧ d.slots = c.slots := by
  obtain ⟨k, hg⟩ := cls_eq_ok.mp hd
  obtain ⟨⟨k', p⟩, ho, -, hp⟩ := get_update_cases hg
  have hmark : p.markFn? = some .cls := by
    rcases hp with hp | ⟨-, hp⟩
    · obtain rfl : Payload.cls d = p := hp
      rfl
    · have hp : Payload.cls d = f p := hp
      rw [← hf.markFn p, ← hp]
      rfl
  obtain ⟨c, rfl⟩ : ∃ c, p = .cls c := by
    cases p <;> simp [Payload.markFn?] at hmark
    exact ⟨_, rfl⟩
  have hc : h.cls x = .ok c := cls_eq_ok.mpr ⟨k', ho⟩
  obtain ⟨e, he, hsup, hslots⟩ := update_keepsClasses (r := r) hf x c hc
  rw [hd] at he
  cases he
  exact ⟨c, hc, hsup, hslots⟩

theorem Sound.update (hs : h.Sound) (hf : Payload.Mild f) {or : Obj} (hr : h.get r = .ok or)
    (hrefs : ∀ s ∈ (f or.payload).refs, h.contains s = true) : (h.update r f).Sound := by
  have hkeep := update_keepsClasses (h := h) (r := r) hf
  refine ⟨?_, ?_, ?_, ?_, ?_, update_freeList hs.freeList r f, ?_, hs.rooted⟩
  · intro x o' ho'
    obtain ⟨o, ho, hcls, hp⟩ := get_update_cases ho'
    have hc := hs.closed x o ho
    refine ⟨contains_update.mpr (hcls ▸ hc.1), fun s hmem => contains_update.mpr ?_⟩
    rcases hp with hp | ⟨hcell, hp⟩
    · exact hc.2 s (hp ▸ hmem)
    · obtain rfl := eq_of_cell_eq (contains_of_get hr) (contains_of_get ho) hcell
      rw [hr] at ho
      cases ho
      exact hrefs s (hp ▸ hmem)
  · intro x o' ho'
    obtain ⟨o, ho, hcls, hp⟩ := get_update_cases ho'
    have hmark : o'.payload.markFn? = o.payload.markFn? := by
      rcases hp with hp | ⟨-, hp⟩
      · rw [hp]
      · rw [hp, hf.markFn]
    obtain ⟨cs, hl, ht⟩ := (hs.traces x o ho).mono hkeep
    exact ⟨cs, hcls ▸ hl, hmark ▸ ht⟩
  · intro x d hd
    obtain ⟨c, hc, -⟩ := update_cls_cases hf hd
    obtain ⟨cs, hl⟩ := hs.lineage x c hc
    obtain ⟨cs', hl', -⟩ := hl.mono hkeep
    exact ⟨cs', hl'⟩
  · intro x d hd
    obtain ⟨c, hc, -, hslots⟩ := update_cls_cases hf hd
    exact hslots ▸ hs.slots x c hc
  · intro b
    obtain ⟨c, hc, hslots⟩ := hs.builtin b
    obtain ⟨d, hd, -, hslots'⟩ := hkeep _ c hc
    exact ⟨d, hd, hslots'.trans hslots⟩
  · intro x hx
    exact contains_update.mpr (hs.root_live x hx)

end Update

/-! ## Collections -/

section Collect

variable {h : Heap}

theorem Sound.traceable (hs : h.Sound) {extra : List Ref}
    (hlive : ∀ r ∈ extra, h.contains r = true) : h.Traceable (h.roots ++ extra) where
  root_live r hr := (List.mem_append.mp hr).elim (hs.root_live r) (hlive r)
  edge_live _ _ he := hs.closed.edge_live he
  lineage r o ho := (hs.traces r o ho).imp fun _ h => h.1

/-- What an object holds is one edge away. -/
theorem Sound.edge (hs : h.Sound) {r s : Ref} {o : Obj} (ho : h.get r = .ok o)
    (hmem : s ∈ o.payload.refs) : h.Edge r s := by
  obtain ⟨cs, hl, hmark⟩ := hs.traces r o ho
  unfold Payload.refs at hmem
  split at hmem
  · rename_i f hf
    obtain ⟨c, hc, hm⟩ := hmark f hf
    exact .traced ho hl hc hm hmem
  · cases hmem

theorem Sound.tracesSupers (hs : h.Sound) : h.TracesSupers := by
  intro r c s hc hsup
  obtain ⟨k, hg⟩ := cls_eq_ok.mp hc
  refine hs.edge hg ?_
  simp [Payload.refs, Payload.markFn?, MarkFn.targets, hsup]

/-- What the roots of a sound heap lead to is sound. -/
theorem KeepsReachable.sound {h' : Heap} {extra : List Ref} (hs : h.Sound)
    (hk : h.KeepsReachable (h.roots ++ extra) h') (hframe : h.SameFrame h')
    (hfree : h'.FreeList) : h'.Sound := by
  have hsup := hs.tracesSupers
  have hcls : ∀ {r o}, h'.get r = .ok o → h.Reachable (h.roots ++ extra) o.cls := by
    intro r o ho
    obtain ⟨ho, hr⟩ := (hk r o).mp ho
    exact .edge hr (.cls ho)
  refine ⟨?_, ?_, ?_, ?_, ?_, hfree, ?_, ?_⟩
  · intro r o ho
    obtain ⟨hg, hr⟩ := (hk r o).mp ho
    refine ⟨hk.contains.mpr ⟨(hs.closed r o hg).1, hcls ho⟩, fun s hmem => ?_⟩
    exact hk.contains.mpr ⟨(hs.closed r o hg).2 s hmem, .edge hr (hs.edge hg hmem)⟩
  · intro r o ho
    obtain ⟨hg, hr⟩ := (hk r o).mp ho
    obtain ⟨cs, hl, hmark⟩ := hs.traces r o hg
    exact ⟨cs, hk.lineage_after hsup hl (hcls ho), hmark⟩
  · intro r c hc
    obtain ⟨hc, hr⟩ := hk.cls.mp hc
    obtain ⟨cs, hl⟩ := hs.lineage r c hc
    exact ⟨cs, hk.lineage_after hsup hl hr⟩
  · intro r c hc
    exact hs.slots r c (hk.cls.mp hc).1
  · intro b
    obtain ⟨c, hc, hslots⟩ := hs.builtin b
    rw [hframe.id]
    refine ⟨c, hk.cls.mpr ⟨hc, .root (List.mem_append_left _ (hs.rooted _ ?_))⟩, hslots⟩
    cases b <;> simp [permanentRoots, Builtin.registered]
  · intro r hr
    rw [hframe.roots] at hr
    exact hk.contains.mpr ⟨hs.root_live r hr, .root (List.mem_append_left _ hr)⟩
  · rw [hframe.id, hframe.roots]
    exact hs.rooted

/-- A collection of a sound heap cannot fail. What the roots lead to stays, and what is left is
sound. -/
theorem Sound.collect (hs : h.Sound) {extra : List Ref}
    (hlive : ∀ r ∈ extra, h.contains r = true) :
    ∃ freed h', h.collect extra = .ok (freed, h') ∧ h.SameFrame h' ∧
      h.KeepsReachable (h.roots ++ extra) h' ∧ h'.Sound := by
  obtain ⟨marks, hrun, -, hk⟩ := get_collect (hs.traceable hlive)
  have hframe := sweep_frame h marks
  exact ⟨_, _, hrun, hframe, hk, hk.sound hs hframe (sweep_freeList h marks)⟩

end Collect
end Heap
end ObjectMachine
