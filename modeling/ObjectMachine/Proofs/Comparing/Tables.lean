import ObjectMachine.Proofs.Comparing.Association
import ObjectMachine.Proofs.Vm.Rules.Calls

/-!
# ObjectMachine.Proofs.Comparing.Tables

What leaves the keys of hashes unequal.

Two keys stay unequal as long as nothing changes of what they consist of. Of all that a task does,
only putting an entry in a hash gives a hash another table; everything else leaves the tables as
they are, and the hashes that it makes are empty.

* `Heap.Intact` — a value of which nothing has changed.
* `Heap.KeysUnequal.intact` — unequal keys stay so.
* `Heap.order_swap`, `Heap.KeysUnequal.bothWays` — then they are unequal in both directions.
* `Heap.KeepsUnequal` — the change of a heap after which the keys of every hash are unequal if they
  were before and nothing has changed of what they consist of.
* `Heap.LeavesTables` — the change of a heap that gives no hash another table. The primitive actions
  are such changes, so all are that obey the rules.
* `Vm.hashSet_cases` — what putting an entry in a hash comes to, in any state.
-/

namespace ObjectMachine

open ObjectMachine.Action

/-- If both operands have an answer, it is the same in both directions. -/
theorem Payload.orderLeft_swap {c : Ref → Ref → Option Ordering} {p q : Payload} {o o' : Ordering}
    (hc : ∀ x ∈ p.parts, ∀ y ∈ q.parts, c y x = (c x y).map Ordering.swap)
    (hnumbers : q.orderNumbers p = (p.orderNumbers q).map Ordering.swap)
    (hpq : p.orderLeft c q = some o) (hqp : q.orderLeft c p = some o') : o' = o.swap := by
  have hagree : q.orderLeft c p = (p.orderLeft c q).map Ordering.swap → o' = o.swap := by
    rw [hpq, hqp]
    exact Option.some.inj
  apply hagree
  cases p with
  | bool x =>
    cases q with
    | bool y => exact consistent_bools.swap trivial trivial
    | _ => exact hnumbers
  | str x =>
    cases q with
    | str y => exact consistent_bytes.swap trivial trivial
    | _ => exact hnumbers
  | task x =>
    cases q with
    | task y => exact consistent_tasks.swap trivial trivial
    | _ => exact hnumbers
  | array xs =>
    cases q with
    | array ys => exact Consistent.orderItems_swap hc
    | _ => exact hnumbers
  | hash s =>
    cases q with
    | hash t =>
      -- an answer says that the hashes are equal
      have heq : ∀ {s t : HashTable} {o},
          orderEntries c s.entries.toList t.entries.toList = some o →
          orderEntries c s.entries.toList t.entries.toList = some .eq := by
        intro s t o h
        rcases orderEntries_eq_or_none (c := c) s.entries.toList t.entries.toList with heq | hnone
        · exact heq
        · rw [hnone] at h
          cases h
      exact (heq hqp).trans (congrArg (Option.map Ordering.swap) (heq hpq)).symm
    | _ => exact hnumbers
  | _ => cases q <;> exact hnumbers

namespace Heap

variable {h h' h'' : Heap} {v x : Ref} {t u : HashTable}

/-! ## Values of which nothing has changed -/

/-- All that `v` consists of is there in both heaps, with the same contents. -/
def Intact (h h' : Heap) (v : Ref) : Prop :=
  ∀ x, h.Spans Payload.parts v x → ∃ p, h.payload x = .ok p ∧ h'.payload x = .ok p

/-- What a value consists of is the value itself or what something in it consists of. -/
theorem Spans.first {edges : Payload → List Ref} (hs : h.Spans edges v x) :
    x = v ∨ ∃ p y, h.payload v = .ok p ∧ y ∈ edges p ∧ h.Spans edges y x := by
  induction hs with
  | self => exact .inl rfl
  | @next x y q _ hq hy ih =>
    rcases ih with rfl | ⟨p, z, hp, hz, hs⟩
    · exact .inr ⟨q, y, hq, hy, .self⟩
    · exact .inr ⟨p, z, hp, hz, .next hs hq hy⟩

/-- It consists of the same objects. -/
theorem Intact.spans (hv : h.Intact h' v) :
    h'.Spans Payload.parts v x ↔ h.Spans Payload.parts v x := by
  constructor
  · intro hs
    induction hs with
    | self => exact .self
    | next _ hp hy ih =>
      obtain ⟨q, hq, hq'⟩ := hv _ ih
      rw [hp] at hq'
      cases hq'
      exact .next ih hq hy
  · intro hs
    induction hs with
    | self => exact .self
    | next hs hp hy ih =>
      obtain ⟨q, hq, hq'⟩ := hv _ hs
      rw [hp] at hq
      cases hq
      exact .next ih hq' hy

/-- What is intact from beginning to end is so from a moment between on, if it was so till then. -/
theorem Intact.later (hv : h.Intact h' v) (hv' : h.Intact h'' v) : h'.Intact h'' v := by
  intro x hs
  obtain ⟨p, hp, hp''⟩ := hv' x (hv.spans.mp hs)
  obtain ⟨q, hq, hq'⟩ := hv x (hv.spans.mp hs)
  rw [hp] at hq
  cases hq
  exact ⟨p, hq', hp''⟩

/-- Every object is compared by its kind, since its class is of the family of its kind. -/
theorem Classed.builtinOrder (hh : h.Classed) : h.BuiltinOrder := by
  intro r o ho
  refine ⟨_, (hh.objects r o ho).findSlot hh fun _ => rfl, ?_⟩
  cases o.payload <;> exact .inl rfl

theorem shares_intact (hn : h'.nesting = h.nesting) (hb : h.BuiltinOrder) (hb' : h'.BuiltinOrder) :
    h.Shares h' (h.Intact h') where
  nesting := hn
  answers r hr := by
    obtain ⟨p, hp, hp'⟩ := hr r .self
    refine ⟨p, hb.answers hp, hb'.answers hp', fun y hy x hs => ?_⟩
    exact hr x (.head hp hy hs)

/-! ## Unequal keys -/

theorem KeysUnequal.empty : h.KeysUnequal {} := by
  simp [KeysUnequal, HashTable.keys]

/-- Keys of which nothing changes stay unequal. -/
theorem KeysUnequal.intact (ht : h.KeysUnequal t) (hn : h'.nesting = h.nesting)
    (hb : h.BuiltinOrder) (hb' : h'.BuiltinOrder) (hkeys : ∀ k ∈ t.keys, h.Intact h' k) :
    h'.KeysUnequal t := by
  have hshares := shares_intact hn hb hb'
  refine List.Pairwise.imp_of_mem ?_ ht
  intro k l hk hl hkl
  rw [hshares.equals (hkeys k (Array.mem_toList_iff.mp hk)) (hkeys l (Array.mem_toList_iff.mp hl))]
  exact hkl

/-- A key that no key equals is put after the others. -/
theorem KeysUnequal.append {key : Ref} (ht : h.KeysUnequal t)
    (hkey : ∀ k ∈ t.keys, h.equals k key = .ok false)
    (hu : u.keys.toList = t.keys.toList ++ [key]) : h.KeysUnequal u := by
  unfold KeysUnequal
  rw [hu, List.pairwise_append]
  refine ⟨ht, List.pairwise_singleton _ _, fun k hk l hl => ?_⟩
  rw [List.mem_singleton.mp hl]
  exact hkey k (Array.mem_toList_iff.mp hk)

/-- The first place of a key is its own. -/
theorem KeysUnequal.firstAt (ht : h.KeysUnequal t) {i : Nat} {k : Ref} (hk : t.keys[i]? = some k) :
    h.FirstAt t.keys.toList k i := by
  rw [← Array.getElem?_toList] at hk
  refine ⟨⟨k, hk, equals_self⟩, fun j hj l hl => ?_⟩
  obtain ⟨hj', rfl⟩ := List.getElem?_eq_some_iff.mp hl
  obtain ⟨hi, rfl⟩ := List.getElem?_eq_some_iff.mp hk
  exact List.pairwise_iff_getElem.mp ht j i hj' hi hj

/-- What is there consists of what is there. -/
theorem Closed.spans_live (hc : h.Closed) {v : Ref} (hv : h.contains v = true) {x : Ref}
    (hs : h.Spans Payload.parts v x) : h.contains x = true := by
  induction hs with
  | self => exact hv
  | @next x y p _ hp hy _ =>
    refine hc.refs_live hp ?_
    cases p with
    | array items => exact hy
    | hash t => exact hy
    | _ => cases hy

/-! ## Unequal keys in both directions -/

theorem Sound.compareWithin_eq_order (hs : h.Sound) (n : Nat) {a b : Ref}
    (ha : h.contains a = true) (hb : h.contains b = true) :
    h.compareWithin n a b = .ok (h.order n a b) := by
  obtain ⟨o, ho⟩ := hs.compareWithin n a b ha hb
  rw [order, ho]

/-- Numbers among the parts of keys are ordered alike in both directions. Integers are; the comparison
of floats is a primitive, of which nothing is known. -/
def NumbersAgree (h : Heap) (t : HashTable) : Prop :=
  ∀ k ∈ t.keys, ∀ l ∈ t.keys, ∀ x y p q, h.Spans Payload.parts k x → h.Spans Payload.parts l y →
    h.payload x = .ok p → h.payload y = .ok q →
      q.orderNumbers p = (p.orderNumbers q).map Ordering.swap

/-- Without floats they do. -/
theorem NumbersAgree.of_noFloats
    (hnone : ∀ k ∈ t.keys, ∀ x z, h.Spans Payload.parts k x → h.payload x ≠ .ok (.float z)) :
    h.NumbersAgree t := by
  intro k hk l hl x y p q hx hy hp hq
  cases p with
  | float z => exact absurd hp (hnone k hk x z hx)
  | int i =>
    cases q with
    | float z => exact absurd hq (hnone l hl y z hy)
    | int j => exact consistent_ints.swap trivial trivial
    | _ => rfl
  | _ => cases q <;> rfl

theorem bothWays_comm {left right : Option Ordering}
    (h : ∀ o o', left = some o → right = some o' → o' = o.swap) :
    bothWays right left = (bothWays left right).map Ordering.swap := by
  cases left with
  | none => cases right <;> simp [bothWays]
  | some o =>
    cases right with
    | none => rfl
    | some o' =>
      rw [h o o' rfl rfl]
      rfl

/-- What keys consist of is ordered alike in both directions. -/
theorem order_swap (hs : h.Sound) (hb : h.BuiltinOrder) {S : Ref → Prop}
    (hlive : ∀ r, S r → h.contains r = true)
    (hparts : ∀ r p, S r → h.payload r = .ok p → ∀ x ∈ p.parts, S x)
    (hnumbers : ∀ x y p q, S x → S y → h.payload x = .ok p → h.payload y = .ok q →
      q.orderNumbers p = (p.orderNumbers q).map Ordering.swap) (n : Nat) :
    ∀ {a b}, S a → S b → h.order n b a = (h.order n a b).map Ordering.swap := by
  induction n with
  | zero =>
    intro a b _ _
    by_cases hab : a = b
    · subst hab
      simp
    · simp [order, compareWithin, hab, Ne.symm hab]
  | succ n ih =>
    intro a b hSa hSb
    by_cases hab : a = b
    · subst hab
      simp
    obtain ⟨p, hp⟩ := Sound.payload (hlive a hSa)
    obtain ⟨q, hq⟩ := Sound.payload (hlive b hSb)
    have hbelow : ∀ {x y}, S x → S y → h.compareWithin n x y = .ok (h.order n x y) :=
      fun hx hy => hs.compareWithin_eq_order n (hlive _ hx) (hlive _ hy)
    have hstep : ∀ {a b : Ref} {p q : Payload}, a ≠ b → S a → S b → h.payload a = .ok p →
        h.payload b = .ok q → h.order (n + 1) a b =
          bothWays (p.orderLeft (h.order n) q) (q.orderLeft (h.order n) p) := by
      intro a b p q hne ha hb' hp hq
      rw [order, compareWithin_succ hne (hb.answers hp) (hb.answers hq)
        (fun x hx y hy => hbelow (hparts a p ha hp x hx) (hparts b q hb' hq y hy))
        (fun x hx y hy => hbelow (hparts b q hb' hq y hy) (hparts a p ha hp x hx))]
    rw [hstep hab hSa hSb hp hq, hstep (Ne.symm hab) hSb hSa hq hp]
    refine bothWays_comm fun o o' hpq hqp => Payload.orderLeft_swap (fun x hx y hy => ?_)
      (hnumbers a b p q hSa hSb hp hq) hpq hqp
    exact ih (hparts a p hSa hp x hx) (hparts b q hSb hq y hy)

/-- Keys of which the earlier one does not equal the later one are unequal in both directions. -/
theorem KeysUnequal.bothWays (ht : h.KeysUnequal t) (hs : h.Sound) (hb : h.BuiltinOrder)
    (hkeys : ∀ k ∈ t.keys, h.contains k = true) (hnumbers : h.NumbersAgree t) {i j : Nat}
    {k l : Ref} (hij : i ≠ j) (hk : t.keys[i]? = some k) (hl : t.keys[j]? = some l) :
    h.equals k l = .ok false := by
  have hle : ∀ {i j : Nat} {k l : Ref}, i < j → t.keys[i]? = some k → t.keys[j]? = some l →
      h.equals k l = .ok false := by
    intro i j k l hij hk hl
    exact (ht.firstAt hl).2 i hij k (by rwa [Array.getElem?_toList])
  rcases Nat.lt_or_gt_of_ne hij with hlt | hgt
  · exact hle hlt hk hl
  have hmem : ∀ {i k}, t.keys[i]? = some k → k ∈ t.keys := Array.mem_of_getElem?
  have hswap := order_swap hs hb (S := fun x => ∃ k ∈ t.keys, h.Spans Payload.parts k x)
    (fun r ⟨k, hk, hr⟩ => hs.closed.spans_live (hkeys k hk) hr)
    (fun r p ⟨k, hk, hr⟩ hp x hx => ⟨k, hk, .next hr hp hx⟩)
    (fun x y p q ⟨k, hk, hx⟩ ⟨l, hl, hy⟩ => hnumbers k hk l hl x y p q hx hy)
    (maxCompareDepth + 1 - h.nesting) ⟨l, hmem hl, .self⟩ ⟨k, hmem hk, .self⟩
  have hwithin : ∀ {k l}, k ∈ t.keys → l ∈ t.keys →
      h.compare k l = .ok (h.order (maxCompareDepth + 1 - h.nesting) k l) := fun hk hl =>
    hs.compareWithin_eq_order _ (hkeys _ hk) (hkeys _ hl)
  obtain ⟨o, ho, hne⟩ := equals_eq_false.mp (hle hgt hl hk)
  refine equals_eq_false.mpr ⟨_, hwithin (hmem hk) (hmem hl), ?_⟩
  rw [hwithin (hmem hl) (hmem hk)] at ho
  rw [hswap, Except.ok.inj ho]
  rcases o with _ | _ | _ | _ <;> simp at hne ⊢

/-! ## Keys that stay unequal -/

/-- The keys of every hash are unequal if they were before, and if nothing has changed of what those
consist of that were there. -/
def KeepsUnequal (h h' : Heap) : Prop :=
  ∀ r u, h'.payload r = .ok (.hash u) → (∀ t, h.payload r = .ok (.hash t) → h.KeysUnequal t) →
    (∀ k ∈ u.keys, h.contains k = true → h.Intact h' k) → h'.KeysUnequal u

/-- It is enough that they were unequal before the change. -/
theorem KeepsUnequal.of_before (hn : h'.nesting = h.nesting) (hb : h.BuiltinOrder)
    (hb' : h'.BuiltinOrder)
    (hbefore : ∀ r u, h'.payload r = .ok (.hash u) →
      (∀ t, h.payload r = .ok (.hash t) → h.KeysUnequal t) →
        h'.KeysUnequal u ∨ h.KeysUnequal u ∧ ∀ k ∈ u.keys, h.contains k = true) :
    h.KeepsUnequal h' := by
  intro r u hu hold hintact
  rcases hbefore r u hu hold with hdone | ⟨hkeys, hlive⟩
  · exact hdone
  · exact hkeys.intact hn hb hb' fun k hk => hintact k hk (hlive k hk)

/-! ## Changes that leave the tables -/

/-- No hash has got another table, and new hashes are empty. -/
structure LeavesTables (h h' : Heap) : Prop where
  freeList : h'.FreeList
  nesting : h'.nesting = h.nesting
  contains : ∀ r, h.contains r = true → h'.contains r = true
  old : ∀ r t, h.contains r = true → h'.payload r = .ok (.hash t) → h.payload r = .ok (.hash t)
  new : ∀ r t, h.contains r = false → h'.payload r = .ok (.hash t) → t = {}

namespace LeavesTables

theorem refl (hf : h.FreeList) : h.LeavesTables h where
  freeList := hf
  nesting := rfl
  contains _ hr := hr
  old _ _ _ ht := ht
  new r t hr ht := by
    rw [contains_of_payload ht] at hr
    cases hr

theorem trans (h₁ : h.LeavesTables h') (h₂ : h'.LeavesTables h'') : h.LeavesTables h'' where
  freeList := h₂.freeList
  nesting := h₂.nesting.trans h₁.nesting
  contains r hr := h₂.contains r (h₁.contains r hr)
  old r t hr ht := h₁.old r t hr (h₂.old r t (h₁.contains r hr) ht)
  new r t hr ht := by
    cases hr' : h'.contains r with
    | false => exact h₂.new r t hr' ht
    | true => exact h₁.new r t hr (h₂.old r t hr' ht)

theorem update (hf : h.FreeList) {g : Payload → Payload} (hg : Payload.Sparing g) (x : Ref) :
    h.LeavesTables (h.update x g) where
  freeList := update_freeList hf x g
  nesting := rfl
  contains _ hr := contains_update.mpr hr
  old r t hr ht := by
    obtain ⟨o, ho⟩ := contains_iff.mp hr
    obtain ⟨k, hk⟩ := payload_eq_ok_iff.mp ht
    rw [get_update_of_get ho] at hk
    refine payload_eq_ok_iff.mpr ⟨o.cls, ?_⟩
    have hkept : g o.payload = .hash t → g o.payload = o.payload := fun heq =>
      hg o.payload (.inr (heq ▸ trivial))
    split at hk
    case isTrue =>
      have heq : g o.payload = .hash t := congrArg Obj.payload (Except.ok.inj hk)
      rw [ho, ← heq, hkept heq]
    case isFalse =>
      rw [ho, Except.ok.inj hk]
  new r t hr ht := by
    rw [contains_update.mp (contains_of_payload ht)] at hr
    cases hr

theorem place (hf : h.FreeList) {o : Obj} (ho : ∀ t, o.payload = .hash t → t = {}) :
    h.LeavesTables (h.place o).2 where
  freeList := place_freeList hf o
  nesting := place_nesting h o
  contains r hr := contains_place hf o hr
  old r t hr ht := by
    rcases payload_place_cases hf ht with ⟨rfl, -⟩ | hold
    · rw [place_fresh hf] at hr
      cases hr
    · exact hold
  new r t hr ht := by
    rcases payload_place_cases hf ht with ⟨-, heq⟩ | hold
    · exact ho t heq.symm
    · rw [contains_of_payload hold] at hr
      cases hr

theorem keepsUnequal (hl : h.LeavesTables h') (hc : h.Closed) (hb : h.BuiltinOrder)
    (hb' : h'.BuiltinOrder) : h.KeepsUnequal h' := by
  refine .of_before hl.nesting hb hb' fun r u hu hold => .inr ?_
  cases hr : h.contains r with
  | true =>
    have hu := hl.old r u hr hu
    refine ⟨hold u hu, fun k hk => hc.refs_live hu ?_⟩
    exact HashTable.key_mem_refs (Array.mem_toList_iff.mpr hk)
  | false =>
    obtain rfl := hl.new r u hr hu
    exact ⟨.empty, fun k hk => by simp [HashTable.keys] at hk⟩

end LeavesTables
end Heap

/-- The action gives no hash another table. -/
def LeavingTables (α : Type) (a : Action α) : Prop :=
  ∀ vm : Vm, vm.heap.FreeList → vm.heap.LeavesTables (final (a vm)).heap

instance LeavingTables.rule : Rule LeavingTables where
  return_ _ _ hf := .refl hf
  fail _ _ hf := .refl hf
  bind {α β a f} ha hf vm hfree := by
    have hfirst := ha vm hfree
    cases hrun : a vm with
    | ok x u =>
      rw [hrun] at hfirst
      rw [bind_ok hrun]
      exact hfirst.trans (hf x u hfirst.freeList)
    | error e u =>
      rw [hrun] at hfirst
      rw [bind_error hrun]
      exact hfirst
  look hf _ vm hfree := hf vm vm hfree
  change {g} hheap _ vm hfree := by
    show vm.heap.LeavesTables (g vm).heap
    rw [hheap]
    exact .refl hfree
  update x _ hg _ hfree := .update hfree hg x
  alloc cls p hp vm hfree := by
    unfold Vm.alloc
    cases vm.heap.checkOwn cls with
    | error e => exact .refl hfree
    | ok _ => exact .place hfree hp
  enter method args h vm hfree := by
    have hframe := h vm hfree
    unfold Vm.enter
    cases hrun : Vm.activate method args vm with
    | ok f u =>
      rw [hrun] at hframe
      rw [bind_ok hrun]
      exact hframe
    | error e u =>
      rw [hrun] at hframe
      rw [bind_error hrun]
      exact hframe
  hashGet hash key h vm hfree := by
    have hitem := h vm hfree
    unfold Vm.hashGet
    cases hrun : Vm.getItem hash key vm with
    | ok x u =>
      rw [hrun] at hitem
      exact hitem
    | error e u =>
      rw [hrun] at hitem
      rcases e with (_ | _) | _ | _ <;> exact hitem

/-! ## Putting an entry in a hash -/

namespace HashTable.Puts

variable {key value : Ref} {t u : HashTable} {i : Nat}

/-- Nothing but the key and the value is new in the table. -/
theorem parts (h : Puts key value t i u) {y : Ref} (hy : y ∈ (Payload.hash u).parts) :
    y ∈ (Payload.hash t).parts ∨ y = key ∨ y = value := by
  simp only [Payload.parts, List.mem_append, Array.mem_toList_iff] at hy ⊢
  cases h with
  | replace hi =>
    rw [keys_modify] at hy
    rcases hy with hy | hy
    · exact .inl (.inl hy)
    · obtain ⟨e, he, rfl⟩ := Array.mem_map.mp hy
      obtain ⟨j, hj⟩ := Array.mem_iff_getElem?.mp he
      rw [Array.getElem?_modify] at hj
      split at hj
      · obtain ⟨d, -, rfl⟩ := Option.map_eq_some_iff.mp hj
        exact .inr (.inr rfl)
      · exact .inl (.inr (Array.mem_map_of_mem (Array.mem_of_getElem? hj)))
  | append hi =>
    rw [← Array.mem_toList_iff, keys_push, List.mem_append, List.mem_singleton,
      Array.mem_toList_iff] at hy
    simp only [values, Array.map_push, Array.mem_push] at hy ⊢
    tauto

end HashTable.Puts

namespace Vm

variable {vm : Vm} {hash key value : Ref}

/-- Either it fails and nothing has happened, or a value is replaced, or an entry is added whose key
no key equals. -/
theorem hashSet_cases (vm : Vm) (hash key value : Ref) :
    final (hashSet hash key value vm) = vm ∨
      ∃ t u i, vm.heap.payload hash = .ok (.hash t) ∧ HashTable.Puts key value t i u ∧
        hashSet hash key value vm = .ok () (vm.refill hash u) ∧
        (u.keys = t.keys ∨ (∀ k ∈ t.keys, vm.heap.equals k key = .ok false) ∧
          u.keys.toList = t.keys.toList ++ [key]) := by
  unfold hashSet
  rcases Reads.cases (payload hash) vm with ⟨p, hp⟩ | ⟨e, hp⟩
  · rw [bind_ok hp]
    cases p with
    | hash t =>
      have ht := (payload_eq_ok.mp hp).1
      dsimp only
      cases hpos : vm.heap.position? t key with
      | error e =>
        left
        rw [bind_run, Action.ofHeap, hpos]
        rfl
      | ok found =>
        rw [bind_ok (ofHeap_run (g := fun h => h.position? t key) hpos)]
        cases found with
        | some i =>
          refine .inr ⟨t, _, i, ht, .replace ?_, rfl, .inl HashTable.keys_modify⟩
          obtain ⟨⟨k, hk, -⟩, -⟩ := Heap.position?_eq_some.mp hpos
          simpa [HashTable.keys, HashTable.size] using (List.getElem?_eq_some_iff.mp hk).1
        | none =>
          exact .inr ⟨t, _, t.size, ht, .append rfl, rfl,
            .inr ⟨Heap.position?_eq_none.mp hpos, HashTable.keys_push⟩⟩
    | _ =>
      left
      rcases Reads.cases (mismatch "hash" hash : Action Unit) vm with ⟨x, hx⟩ | ⟨e, hx⟩ <;>
        exact congrArg final hx
  · rw [bind_error hp]
    exact .inl rfl

end Vm
end ObjectMachine
