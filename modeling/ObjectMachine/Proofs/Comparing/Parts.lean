import ObjectMachine.Proofs.Comparing.Values

/-!
# ObjectMachine.Proofs.Comparing.Parts

Comparison looks at nothing but what the two operands consist of.

What an operation on the heap leaves alone in the parts of two values, it leaves alone in the
answer: no order of keys and no equality can change by a change elsewhere.

* `Heap.Spans` — what a value consists of, along some kind of references.
* `Heap.Shares` — two heaps have the objects of a set in common, with all parts of each.
* `Heap.Shares.compareWithin` — comparison in both heaps, by induction on the levels.
* `Heap.Shares.position?` — and with it the look-up of keys.
-/

namespace ObjectMachine

/-! ## Containers -/

section Containers

variable {cmp cmp' : Comparison}

theorem compareItems_congr : ∀ {xs ys : List Ref}, (∀ x ∈ xs, ∀ y ∈ ys, cmp' x y = cmp x y) →
    compareItems cmp' xs ys = compareItems cmp xs ys := by
  intro xs
  induction xs with
  | nil => intro ys _; cases ys <;> rfl
  | cons x xs ih =>
    intro ys h
    cases ys with
    | nil => rfl
    | cons y ys =>
      have hrest : compareItems cmp' xs ys = compareItems cmp xs ys :=
        ih fun a ha b hb => h a (.tail _ ha) b (.tail _ hb)
      simp only [compareItems, h x (.head _) y (.head _), hrest]

theorem positionIn_congr {key : Ref} : ∀ {ks : List Ref} {start : Nat},
    (∀ k ∈ ks, cmp' k key = cmp k key) →
    positionIn cmp' key start ks = positionIn cmp key start ks := by
  intro ks
  induction ks with
  | nil => exact fun _ => rfl
  | cons k ks ih =>
    intro start h
    simp only [positionIn, h k (.head _), ih fun l hl => h l (.tail _ hl)]

theorem entriesWithin_congr {t : HashTable} : ∀ {es : List (Ref × Ref)},
    (∀ k ∈ t.keys.toList, ∀ e ∈ es, cmp' k e.1 = cmp k e.1) →
    (∀ e ∈ es, ∀ w ∈ t.values.toList, cmp' e.2 w = cmp e.2 w) →
    entriesWithin cmp' t es = entriesWithin cmp t es := by
  intro es
  induction es with
  | nil => exact fun _ _ => rfl
  | cons e es ih =>
    intro hkeys hvalues
    obtain ⟨k, v⟩ := e
    have hrest := ih (fun l hl e he => hkeys l hl e (.tail _ he))
      fun e he => hvalues e (.tail _ he)
    have hplace : positionIn cmp' k 0 t.keys.toList = positionIn cmp k 0 t.keys.toList :=
      positionIn_congr fun l hl => hkeys l hl (k, v) (.head _)
    have hvalue : ∀ (i : Nat) {f : Ref × Ref}, t.entries[i]? = some f →
        cmp' v f.2 = cmp v f.2 := by
      intro i f hf
      refine hvalues (k, v) (.head _) f.2 (Array.mem_toList_iff.mpr ?_)
      exact Array.mem_map_of_mem (Array.mem_of_getElem? hf)
    rw [entriesWithin, entriesWithin, hplace]
    cases positionIn cmp k 0 t.keys.toList with
    | error e => rfl
    | ok found =>
      cases found with
      | none => rfl
      | some i =>
        cases hf : t.entries[i]? with
        | none => simp only [hf]
        | some f =>
          obtain ⟨l, w⟩ := f
          simp only [hf, hvalue i hf, hrest]

theorem compareHashes_congr {s t : HashTable}
    (hkeys : ∀ k ∈ t.keys.toList, ∀ e ∈ s.entries.toList, cmp' k e.1 = cmp k e.1)
    (hvalues : ∀ e ∈ s.entries.toList, ∀ w ∈ t.values.toList, cmp' e.2 w = cmp e.2 w) :
    compareHashes cmp' s t = compareHashes cmp s t := by
  simp only [compareHashes, entriesWithin_congr hkeys hvalues]

end Containers

namespace Heap

/-! ## What a value consists of -/

/-- What `v` consists of along the references that `edges` picks: itself, what it holds, and so
on. -/
inductive Spans (h : Heap) (edges : Payload → List Ref) (v : Ref) : Ref → Prop where
  | self : Spans h edges v v
  | next {x r : Ref} {p : Payload} : Spans h edges v x → h.payload x = .ok p → r ∈ edges p →
      Spans h edges v r

theorem Spans.head {h : Heap} {edges : Payload → List Ref} {v x r : Ref} {p : Payload}
    (hv : h.payload v = .ok p) (hx : x ∈ edges p) (hr : h.Spans edges x r) :
    h.Spans edges v r := by
  induction hr with
  | self => exact .next .self hv hx
  | next _ hp hmem ih => exact .next ih hp hmem

/-- The two heaps have the objects of the set in common, which are compared by their kind, and with
each of them its parts. -/
structure Shares (h h' : Heap) (S : Ref → Prop) : Prop where
  nesting : h'.nesting = h.nesting
  answers : ∀ r, S r → ∃ p, h.Answers r p ∧ h'.Answers r p ∧ ∀ x ∈ p.parts, S x

/-! ## Comparison -/

variable {h h' : Heap} {S : Ref → Prop} {a b : Ref}

theorem compareLeft_congr {cmp cmp' : Comparison} {oa ob : Payload} (ha : h.Answers a oa)
    (ha' : h'.Answers a oa) (hb : h.payload b = .ok ob) (hb' : h'.payload b = .ok ob)
    (hab : ∀ x ∈ oa.parts, ∀ y ∈ ob.parts, cmp' x y = cmp x y)
    (hba : ∀ x ∈ oa.parts, ∀ y ∈ ob.parts, cmp' y x = cmp y x) :
    h'.compareLeft cmp' a b = h.compareLeft cmp a b := by
  rw [compareLeft_of_answers ha, compareLeft_of_answers ha']
  have hpa := ha.payload
  have hpa' := ha'.payload
  have hitems : ∀ xs ys, oa = .array xs → ob = .array ys →
      compareItems cmp' xs.toList ys.toList = compareItems cmp xs.toList ys.toList := by
    rintro xs ys rfl rfl
    exact compareItems_congr hab
  have hentries : ∀ s t, oa = .hash s → ob = .hash t →
      compareHashes cmp' s t = compareHashes cmp s t := by
    rintro s t rfl rfl
    have hentry : ∀ e ∈ s.entries.toList, e.1 ∈ s.keys.toList ∧ e.2 ∈ s.values.toList := by
      intro e he
      rw [Array.mem_toList_iff] at he
      exact ⟨Array.mem_toList_iff.mpr (Array.mem_map_of_mem he),
        Array.mem_toList_iff.mpr (Array.mem_map_of_mem he)⟩
    apply compareHashes_congr
    · intro k hk e he
      exact hba e.1 (List.mem_append_left _ (hentry e he).1) k (List.mem_append_left _ hk)
    · intro e he w hw
      exact hab e.2 (List.mem_append_right _ (hentry e he).2) w (List.mem_append_right _ hw)
  cases oa with
  | array xs =>
    simp only [Payload.cmpFn?, Option.elim_some, CmpFn.run, hpa, hpa', hb, hb', bind, Except.bind]
    cases ob with
    | array ys => exact hitems xs ys rfl rfl
    | _ => rfl
  | hash s =>
    simp only [Payload.cmpFn?, Option.elim_some, CmpFn.run, hpa, hpa', hb, hb', bind, Except.bind]
    cases ob with
    | hash t => exact hentries s t rfl rfl
    | _ => rfl
  | bool | int | float | str | task =>
    simp only [Payload.cmpFn?, Option.elim_some, CmpFn.run, hpa, hpa', hb, hb', bind, Except.bind]
  | _ => rfl

namespace Shares

/-- Members of the set are compared alike, however many levels are left. -/
theorem compareWithin (hs : h.Shares h' S) : ∀ (levels : Nat) {a b : Ref}, S a → S b →
    h'.compareWithin levels a b = h.compareWithin levels a b := by
  intro levels
  induction levels with
  | zero => exact fun _ _ => rfl
  | succ levels ih =>
    intro a b ha hb
    obtain ⟨oa, hoa, hoa', hpa⟩ := hs.answers a ha
    obtain ⟨ob, hob, hob', hpb⟩ := hs.answers b hb
    have hleft := compareLeft_congr hoa hoa' hob.payload hob'.payload
      (fun x hx y hy => ih (hpa x hx) (hpb y hy)) fun x hx y hy => ih (hpb y hy) (hpa x hx)
    have hright := compareLeft_congr hob hob' hoa.payload hoa'.payload
      (fun y hy x hx => ih (hpb y hy) (hpa x hx)) fun y hy x hx => ih (hpa x hx) (hpb y hy)
    simp only [Heap.compareWithin, hleft, hright]

theorem compare (hs : h.Shares h' S) (ha : S a) (hb : S b) : h'.compare a b = h.compare a b := by
  rw [Heap.compare, Heap.compare, hs.nesting]
  exact hs.compareWithin _ ha hb

theorem equals (hs : h.Shares h' S) (ha : S a) (hb : S b) : h'.equals a b = h.equals a b := by
  rw [Heap.equals, Heap.equals, hs.compare ha hb]

/-- Keys of the set are found in the same places. -/
theorem position? (hs : h.Shares h' S) {t : HashTable} {key : Ref} (hkeys : ∀ k ∈ t.keys, S k)
    (hkey : S key) : h'.position? t key = h.position? t key :=
  positionIn_congr fun k hk => hs.compare (hkeys k (Array.mem_toList_iff.mp hk)) hkey

end Shares
end Heap
end ObjectMachine
