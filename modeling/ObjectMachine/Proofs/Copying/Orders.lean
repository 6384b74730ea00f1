import ObjectMachine.Proofs.Copying.Trees
import ObjectMachine.Proofs.Heap.Lineage

/-!
# ObjectMachine.Proofs.Copying.Orders

Comparison of values that can be packed.

Where the dispatch tables are the built-in ones, how two objects compare is decided by their
contents. Comparing values that have trees always comes to an end before the levels run out, so the
answer does not depend on the number of levels that are left.

* `Heap.ByKind` — every object is compared by what it holds.
* `Heap.Nests` — so many levels of objects, each compared by what it holds.
* `Payload.orderLeft` — what the left operand's comparison says, given the order of what the two
  operands contain.
* `Heap.order` — the order of two values with so many levels, failures left out.
* `Heap.compareWithin_of_nests` — comparison with at least as many levels as the values need.
-/

namespace ObjectMachine

/-! ### Orders of containers -/

section Containers

variable {α β : Type}

/-- Lexicographic order; a pair that is not comparable makes the lists so. -/
def orderItems (c : α → α → Option Ordering) : List α → List α → Option Ordering
  | [], [] => some .eq
  | [], _ :: _ => some .lt
  | _ :: _, [] => some .gt
  | x :: xs, y :: ys =>
    match c x y with
    | some .eq => orderItems c xs ys
    | o => o

/-- The value of the first entry whose key equals `key`. -/
def partner? (c : α → α → Option Ordering) (key : α) : List (α × α) → Option α
  | [] => none
  | (k, v) :: rest => if c k key = some .eq then some v else partner? c key rest

/-- Whether each entry has a partner among `fs` with an equal key and an equal value. -/
def partnered (c : α → α → Option Ordering) (fs : List (α × α)) : List (α × α) → Bool
  | [] => true
  | (k, v) :: rest =>
    match partner? c k fs with
    | some w => c v w == some .eq && partnered c fs rest
    | none => false

def orderEntries (c : α → α → Option Ordering) (es fs : List (α × α)) : Option Ordering :=
  if es.length = fs.length ∧ partnered c fs es = true then some .eq else none

variable {c : α → α → Option Ordering} {d : β → β → Option Ordering} {S T : α → β → Prop}

theorem orderItems_congr {xs ys : List α} {ps qs : List β} (hS : List.Forall₂ S xs ps)
    (hT : List.Forall₂ T ys qs) (hcd : ∀ x p y q, S x p → T y q → c x y = d p q) :
    orderItems c xs ys = orderItems d ps qs := by
  induction hS generalizing ys qs with
  | nil => cases hT <;> rfl
  | @cons x p xs ps hxp _ ih =>
    cases hT with
    | nil => rfl
    | @cons y q ys qs hyq hT =>
      simp only [orderItems, hcd x p y q hxp hyq, ih hT]

theorem partner?_congr {key : α} {key' : β} {fs : List (α × α)} {qs : List (β × β)}
    (hT : List.Forall₂ (fun f q => T f.1 q.1 ∧ T f.2 q.2) fs qs)
    (hcd : ∀ x p, T x p → c x key = d p key') :
    Option.Rel T (partner? c key fs) (partner? d key' qs) := by
  induction hT with
  | nil => exact .none
  | @cons f q fs qs hfq _ ih =>
    simp only [partner?, hcd f.1 q.1 hfq.1]
    split
    · exact .some hfq.2
    · exact ih

theorem partnered_congr {es fs : List (α × α)} {ps qs : List (β × β)}
    (hS : List.Forall₂ (fun e p => S e.1 p.1 ∧ S e.2 p.2) es ps)
    (hT : List.Forall₂ (fun f q => T f.1 q.1 ∧ T f.2 q.2) fs qs)
    (hcd : ∀ x p y q, S x p → T y q → c x y = d p q)
    (hdc : ∀ x p y q, S x p → T y q → c y x = d q p) :
    partnered c fs es = partnered d qs ps := by
  induction hS with
  | nil => rfl
  | @cons e p es ps hep _ ih =>
    have hfind := partner?_congr hT fun y q hyq => hdc e.1 p.1 y q hep.1 hyq
    simp only [partnered, ih]
    generalize partner? c e.1 fs = x at hfind
    generalize partner? d p.1 qs = y at hfind
    cases hfind with
    | none => rfl
    | some hw => simp only [hcd _ _ _ _ hep.2 hw]

theorem orderEntries_congr {es fs : List (α × α)} {ps qs : List (β × β)}
    (hS : List.Forall₂ (fun e p => S e.1 p.1 ∧ S e.2 p.2) es ps)
    (hT : List.Forall₂ (fun f q => T f.1 q.1 ∧ T f.2 q.2) fs qs)
    (hcd : ∀ x p y q, S x p → T y q → c x y = d p q)
    (hdc : ∀ x p y q, S x p → T y q → c y x = d q p) :
    orderEntries c es fs = orderEntries d ps qs := by
  rw [orderEntries, orderEntries, partnered_congr hS hT hcd hdc, hS.length_eq, hT.length_eq]

end Containers

/-! ### The comparison of a heap -/

section Comparisons

variable {cmp : Comparison} {c : Ref → Ref → Option Ordering}

theorem compareItems_eq {xs ys : List Ref} (hc : ∀ x ∈ xs, ∀ y ∈ ys, cmp x y = .ok (c x y)) :
    compareItems cmp xs ys = .ok (orderItems c xs ys) := by
  induction xs generalizing ys with
  | nil => cases ys <;> rfl
  | cons x xs ih =>
    cases ys with
    | nil => rfl
    | cons y ys =>
      have hrest : compareItems cmp xs ys = .ok (orderItems c xs ys) :=
        ih fun a ha b hb => hc a (by simp [ha]) b (by simp [hb])
      simp only [compareItems, orderItems, hc x (by simp) y (by simp), hrest]
      split <;> simp_all

/-- The place that is found leads to the partner. -/
theorem positionIn_eq {key : Ref} {fs : List (Ref × Ref)}
    (hc : ∀ f ∈ fs, cmp f.1 key = .ok (c f.1 key)) (start : Nat) :
    ∃ i : Option Nat, positionIn cmp key start (fs.map Prod.fst) = .ok (i.map (start + ·)) ∧
      partner? c key fs = i.bind fun i => fs[i]?.map Prod.snd := by
  induction fs generalizing start with
  | nil => exact ⟨none, rfl, rfl⟩
  | cons f fs ih =>
    obtain ⟨k, v⟩ := f
    have hk := hc (k, v) (by simp)
    by_cases heq : c k key = some .eq
    · refine ⟨some 0, ?_, ?_⟩
      · simp only [List.map_cons, positionIn, hk, heq]
        rfl
      · simp [partner?, heq]
    · obtain ⟨i, hpos, hpartner⟩ := ih (fun f hf => hc f (by simp [hf])) (start + 1)
      refine ⟨i.map (· + 1), ?_, ?_⟩
      · simp only [List.map_cons, positionIn, hk, hpos]
        cases i with
        | none => rfl
        | some i =>
          show Except.ok (some (start + 1 + i)) = Except.ok (some (start + (i + 1)))
          rw [Nat.add_assoc, Nat.add_comm 1 i]
      · rw [partner?, if_neg heq, hpartner]
        cases i <;> simp

theorem entriesWithin_eq {t : HashTable} {es : List (Ref × Ref)}
    (hkeys : ∀ f ∈ t.entries.toList, ∀ e ∈ es, cmp f.1 e.1 = .ok (c f.1 e.1))
    (hvalues : ∀ e ∈ es, ∀ f ∈ t.entries.toList, cmp e.2 f.2 = .ok (c e.2 f.2)) :
    entriesWithin cmp t es = .ok (partnered c t.entries.toList es) := by
  induction es with
  | nil => rfl
  | cons e es ih =>
    obtain ⟨k, v⟩ := e
    have hrest := ih (fun f hf e he => hkeys f hf e (by simp [he]))
      (fun e he f hf => hvalues e (by simp [he]) f hf)
    have hfst : t.keys.toList = t.entries.toList.map Prod.fst := by simp [HashTable.keys]
    obtain ⟨i, hpos, hpartner⟩ := positionIn_eq (fun f hf => hkeys f hf (k, v) (by simp)) 0
    rw [entriesWithin, partnered, hfst, hpos, hpartner]
    cases i with
    | none => rfl
    | some i =>
      have hplace : t.entries[0 + i]? = t.entries.toList[i]? := by simp
      simp only [Option.map_some, Option.bind_some, hplace]
      cases hf : t.entries.toList[i]? with
      | none => rfl
      | some f =>
        have hv := hvalues (k, v) (by simp) f (List.mem_of_getElem? hf)
        simp only [Option.map_some, hv, hrest]
        split <;> simp_all

theorem compareHashes_eq {s t : HashTable}
    (hkeys : ∀ f ∈ t.entries.toList, ∀ e ∈ s.entries.toList, cmp f.1 e.1 = .ok (c f.1 e.1))
    (hvalues : ∀ e ∈ s.entries.toList, ∀ f ∈ t.entries.toList, cmp e.2 f.2 = .ok (c e.2 f.2)) :
    compareHashes cmp s t = .ok (orderEntries c s.entries.toList t.entries.toList) := by
  simp only [compareHashes, orderEntries, HashTable.size, entriesWithin_eq hkeys hvalues,
    Array.length_toList]
  by_cases hsize : s.entries.size = t.entries.size
  · cases partnered c t.entries.toList s.entries.toList <;> simp [hsize]
  · simp [hsize]

end Comparisons

/-- Whether a comparison comes with the machine; the others are hooks. -/
def CmpFn.builtin : CmpFn → Bool
  | .aboveInts | .never | .unwrap => false
  | _ => true

namespace Payload

/-- The comparison that the built-in class of the kind has. -/
def cmpFn? : Payload → Option CmpFn
  | .bool _ => some .bool
  | .int _ | .float _ => some .number
  | .str _ => some .bytes
  | .array _ => some .array
  | .hash _ => some .hash
  | .task _ => some .task
  | _ => none

/-- The slot compares the payload as its kind is compared. A kind without a comparison may inherit a
built-in one, which finds nothing in it to compare. -/
def Suits (p : Payload) (slot : Option CmpFn) : Prop :=
  slot = p.cmpFn? ∨ p.cmpFn? = none ∧ ∃ f, slot = some f ∧ f.builtin = true

/-- The order of two numbers; none if one of the payloads is no number. -/
def orderNumbers (p q : Payload) : Option Ordering :=
  match p.number?, q.number? with
  | some x, some y => x.compare y
  | _, _ => none

/-- What the comparison of the left operand's kind says; `c` orders what the two contain. -/
def orderLeft (c : Ref → Ref → Option Ordering) : Payload → Payload → Option Ordering
  | .bool x, .bool y => some (compareBools x y)
  | .str x, .str y => some (compareBytes x.data.toList y.data.toList)
  | .array xs, .array ys => orderItems c xs.toList ys.toList
  | .hash s, .hash t => orderEntries c s.entries.toList t.entries.toList
  | .task x, .task y => if x.task = y.task then some .eq else none
  | p, q => p.orderNumbers q

/-- What a container contains. -/
def parts : Payload → List Ref
  | .array items => items.toList
  | .hash t => t.keys.toList ++ t.values.toList
  | _ => []

end Payload

namespace Heap

/-- The class chain of `k` compares objects with the payload by their kind. -/
def Compares (h : Heap) (k : Ref) (p : Payload) : Prop :=
  ∃ cs, h.Lineage k cs ∧ cs.findSome? (fun c => c.slots.cmp) = p.cmpFn?

/-- Every object is compared by its kind, and there is one nil. -/
structure ByKind (h : Heap) : Prop where
  compares : ∀ r o, h.get r = .ok o → h.Compares o.cls o.payload
  nil : ∀ r, h.payload r = .ok .nil → r = nilRef h.id

variable {h : Heap} {a b : Ref} {oa ob : Payload}

theorem payload_eq_ok_iff {r : Ref} {p : Payload} :
    h.payload r = .ok p ↔ ∃ k, h.get r = .ok ⟨k, p⟩ := by
  unfold payload
  cases hg : h.get r with
  | error e => simp
  | ok o =>
    obtain ⟨k, q⟩ := o
    simp

/-- The object holds the payload and is compared by its kind. -/
def Answers (h : Heap) (r : Ref) (p : Payload) : Prop :=
  ∃ k slot, h.get r = .ok ⟨k, p⟩ ∧ h.findSlot Slots.cmp k = .ok slot ∧ p.Suits slot

theorem Answers.payload {r : Ref} {p : Payload} (hr : h.Answers r p) : h.payload r = .ok p := by
  obtain ⟨k, -, hget, -⟩ := hr
  exact payload_eq_ok_iff.mpr ⟨k, hget⟩

theorem ByKind.answers (hk : h.ByKind) {r : Ref} {p : Payload} (hr : h.payload r = .ok p) :
    h.Answers r p := by
  obtain ⟨k, hget⟩ := payload_eq_ok_iff.mp hr
  obtain ⟨cs, hlin, hcmp⟩ := hk.compares r _ hget
  refine ⟨k, p.cmpFn?, hget, ?_, .inl rfl⟩
  rw [findSlot, hlin.findInChain, ← hcmp]

/-- A kind without a comparison has no answer, whichever built-in one it inherits. -/
theorem run_of_builtin {f : CmpFn} (hf : f.builtin = true) {cmp : Comparison}
    (ha : h.payload a = .ok oa) (hnone : oa.cmpFn? = none) : f.run h cmp a b = .ok none := by
  cases f with
  | aboveInts | never | unwrap => cases hf
  | _ =>
    simp only [CmpFn.run, ha, bind, Except.bind]
    cases oa <;> first | rfl | cases hnone

theorem compareLeft_of_answers {cmp : Comparison} (ha : h.Answers a oa) :
    h.compareLeft cmp a b = oa.cmpFn?.elim (.ok none) fun f => f.run h cmp a b := by
  have hpay := ha.payload
  obtain ⟨k, slot, hget, hslot, hsuits⟩ := ha
  have hcls : h.classOf a = .ok k := by rw [classOf, hget]
  have hleft : h.compareLeft cmp a b = slot.elim (.ok none) fun f => f.run h cmp a b := by
    cases slot with
    | none =>
      simp only [compareLeft, hcls, hslot, bind, Except.bind, pure, Except.pure, Option.elim_none]
    | some f => simp only [compareLeft, hcls, hslot, bind, Except.bind, Option.elim_some]
  rcases hsuits with rfl | ⟨hnone, f, rfl, hf⟩
  · exact hleft
  · rw [hleft, hnone]
    exact run_of_builtin hf hpay hnone

theorem compareLeft_eq {cmp : Comparison} {c : Ref → Ref → Option Ordering}
    (hans : h.Answers a oa) (hb : h.payload b = .ok ob)
    (hab : ∀ x ∈ oa.parts, ∀ y ∈ ob.parts, cmp x y = .ok (c x y))
    (hba : ∀ x ∈ oa.parts, ∀ y ∈ ob.parts, cmp y x = .ok (c y x)) :
    h.compareLeft cmp a b = .ok (oa.orderLeft c ob) := by
  have ha := hans.payload
  have hitems : ∀ xs ys, oa = .array xs → ob = .array ys →
      compareItems cmp xs.toList ys.toList = .ok (orderItems c xs.toList ys.toList) := by
    rintro xs ys rfl rfl
    exact compareItems_eq hab
  have hentries : ∀ s t, oa = .hash s → ob = .hash t →
      compareHashes cmp s t = .ok (orderEntries c s.entries.toList t.entries.toList) := by
    rintro s t rfl rfl
    have hkey : ∀ (u : HashTable), ∀ e ∈ u.entries.toList, e.1 ∈ (Payload.hash u).parts := by
      intro u e he
      refine List.mem_append_left _ ?_
      simpa [HashTable.keys] using ⟨_, Array.mem_toList_iff.mp he⟩
    have hvalue : ∀ (u : HashTable), ∀ e ∈ u.entries.toList, e.2 ∈ (Payload.hash u).parts := by
      intro u e he
      refine List.mem_append_right _ ?_
      simpa [HashTable.values] using ⟨_, Array.mem_toList_iff.mp he⟩
    apply compareHashes_eq
    · intro f hf e he
      exact hba _ (hkey s e he) _ (hkey t f hf)
    · intro e he f hf
      exact hab _ (hvalue s e he) _ (hvalue t f hf)
  rw [compareLeft_of_answers hans]
  cases oa with
  | array xs =>
    simp only [Payload.cmpFn?, Option.elim_some, CmpFn.run, ha, hb, bind, Except.bind]
    cases ob with
    | array ys => exact hitems xs ys rfl rfl
    | _ => rfl
  | hash s =>
    simp only [Payload.cmpFn?, Option.elim_some, CmpFn.run, ha, hb, bind, Except.bind]
    cases ob with
    | hash t => exact hentries s t rfl rfl
    | _ => rfl
  | bool | int | float | str | task =>
    simp only [Payload.cmpFn?, Option.elim_some, CmpFn.run, ha, hb, bind, Except.bind]
    cases ob <;> rfl
  | _ => cases ob <;> rfl

/-- The order of two values, `levels` levels deep. -/
def order (h : Heap) (levels : Nat) (a b : Ref) : Option Ordering :=
  match h.compareWithin levels a b with
  | .ok o => o
  | .error _ => none

/-- The answer of the left operand, or else that of the right one reversed. -/
def bothWays (left right : Option Ordering) : Option Ordering :=
  match left with
  | some o => some o
  | none => right.map Ordering.swap

@[simp] theorem order_self (m : Nat) : h.order m a a = some .eq := by
  cases m <;> simp [order, compareWithin]

end Heap

theorem View.Contents.parts {V : View} {T : Ref → Packed → Prop} {o : Payload} {p : Packed}
    (h : V.Contents T o p) : ∀ x ∈ o.parts, ∃ q, T x q := by
  intro x hx
  cases h with
  | array hps =>
    obtain ⟨q, -, hq⟩ := forall₂_mem_left hps hx
    exact ⟨q, hq⟩
  | hash hqs =>
    simp only [Payload.parts, HashTable.keys, HashTable.values, Array.toList_map,
      List.mem_append, List.mem_map] at hx
    rcases hx with ⟨e, he, rfl⟩ | ⟨e, he, rfl⟩
    · obtain ⟨q, -, hq⟩ := forall₂_mem_left hqs he
      exact ⟨q.1, hq.1⟩
    · obtain ⟨q, -, hq⟩ := forall₂_mem_left hqs he
      exact ⟨q.2, hq.2⟩
  | _ => simp [Payload.parts] at hx

namespace Heap

variable {h : Heap} {a b : Ref} {p q : Packed}

/-- Objects at most `levels` levels deep, each of which is compared by its kind. -/
def Nests (h : Heap) : Nat → Ref → Prop
  | 0, _ => False
  | levels + 1, r => ∃ p, h.Answers r p ∧ ∀ x ∈ p.parts, Nests h levels x

theorem ByKind.nests (hk : h.ByKind) {m : Nat} {r : Ref} {p : Packed} (hr : h.view.Tree m r p) :
    h.Nests m r := by
  induction m generalizing r p with
  | zero => exact hr.elim
  | succ m ih =>
    obtain ⟨o, ho, hp⟩ := hr
    refine ⟨o, hk.answers ho, ?_⟩
    intro x hx
    obtain ⟨q, hq⟩ := hp.parts x hx
    exact ih hq

/-- One level of a comparison between different objects, in terms of the order below it. -/
theorem compareWithin_succ {oa ob : Payload} (hne : a ≠ b)
    (ha : h.Answers a oa) (hb : h.Answers b ob) {m n : Nat}
    (hab : ∀ x ∈ oa.parts, ∀ y ∈ ob.parts, h.compareWithin n x y = .ok (h.order m x y))
    (hba : ∀ x ∈ oa.parts, ∀ y ∈ ob.parts, h.compareWithin n y x = .ok (h.order m y x)) :
    h.compareWithin (n + 1) a b =
      .ok (bothWays (oa.orderLeft (h.order m) ob) (ob.orderLeft (h.order m) oa)) := by
  have hleft := compareLeft_eq ha hb.payload hab hba
  have hright := compareLeft_eq hb ha.payload (fun y hy x hx => hba x hx y hy)
    (fun y hy x hx => hab x hx y hy)
  rw [compareWithin, if_neg hne]
  simp only [hleft, hright, bothWays]
  cases oa.orderLeft (h.order m) ob <;> rfl

/-- Values of at most `m` levels are compared alike with any number of levels from `m` on. -/
theorem compareWithin_of_nests : ∀ {m : Nat} {a b : Ref}, h.Nests m a → h.Nests m b →
    ∀ {n : Nat}, m ≤ n → h.compareWithin n a b = .ok (h.order m a b) := by
  intro m
  induction m with
  | zero => intro a b ha; exact ha.elim
  | succ m ih =>
    intro a b ha hb n hn
    obtain ⟨oa, hoa, hp⟩ := ha
    obtain ⟨ob, hob, hq⟩ := hb
    obtain ⟨n, rfl⟩ : ∃ k, n = k + 1 := ⟨n - 1, by omega⟩
    by_cases hne : a = b
    · subst hne
      simp [compareWithin]
    have hstep : ∀ {k}, m ≤ k → h.compareWithin (k + 1) a b =
        .ok (bothWays (oa.orderLeft (h.order m) ob) (ob.orderLeft (h.order m) oa)) := by
      intro k hmk
      exact compareWithin_succ hne hoa hob (fun x hx y hy => ih (hp x hx) (hq y hy) hmk)
        (fun x hx y hy => ih (hq y hy) (hp x hx) hmk)
    rw [hstep (by omega), order, hstep (Nat.le_refl m)]

/-- One level of the order of different objects. -/
theorem order_of_nests (hne : a ≠ b) {m : Nat} {oa ob : Payload} (ha : h.Answers a oa)
    (hp : ∀ x ∈ oa.parts, h.Nests m x) (hb : h.Answers b ob) (hq : ∀ y ∈ ob.parts, h.Nests m y) :
    h.order (m + 1) a b =
      bothWays (oa.orderLeft (h.order m) ob) (ob.orderLeft (h.order m) oa) := by
  rw [order, compareWithin_succ hne ha hb
    (fun x hx y hy => compareWithin_of_nests (hp x hx) (hq y hy) (Nat.le_refl m))
    (fun x hx y hy => compareWithin_of_nests (hq y hy) (hp x hx) (Nat.le_refl m))]

/-- Equality of values of so many levels. -/
theorem equals_of_nests {m : Nat} (hm : m + h.nesting ≤ maxCompareDepth + 1) (ha : h.Nests m a)
    (hb : h.Nests m b) : h.equals a b = .ok (h.order m a b == some .eq) := by
  rw [equals, compare, compareWithin_of_nests ha hb (by omega)]

/-- Values with trees of at most `m` levels are compared alike with any number of levels from `m`
on. -/
theorem compareWithin_eq_order (hk : h.ByKind) {m : Nat} (ha : h.view.Tree m a p)
    (hb : h.view.Tree m b q) {n : Nat} (hn : m ≤ n) :
    h.compareWithin n a b = .ok (h.order m a b) :=
  compareWithin_of_nests (hk.nests ha) (hk.nests hb) hn

theorem order_succ (hk : h.ByKind) (hne : a ≠ b) {m : Nat} {oa ob : Payload}
    (ha : h.payload a = .ok oa) (hp : h.view.Contents (h.view.Tree m) oa p)
    (hb : h.payload b = .ok ob) (hq : h.view.Contents (h.view.Tree m) ob q) :
    h.order (m + 1) a b =
      bothWays (oa.orderLeft (h.order m) ob) (ob.orderLeft (h.order m) oa) := by
  have hparts : ∀ {o : Payload} {p : Packed}, h.view.Contents (h.view.Tree m) o p →
      ∀ x ∈ o.parts, h.Nests m x := by
    intro o p ho x hx
    obtain ⟨s, hs⟩ := ho.parts x hx
    exact hk.nests hs
  exact order_of_nests hne (hk.answers ha) (hparts hp) (hk.answers hb) (hparts hq)

/-- Equality of values that can be packed. -/
theorem equals_eq (hk : h.ByKind) (hnest : h.nesting = 0) {m : Nat} (hm : m ≤ maxCompareDepth + 1)
    (ha : h.view.Tree m a p) (hb : h.view.Tree m b q) :
    h.equals a b = .ok (h.order m a b == some .eq) :=
  equals_of_nests (by omega) (hk.nests ha) (hk.nests hb)

end Heap
end ObjectMachine
