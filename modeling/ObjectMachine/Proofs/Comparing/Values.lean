import ObjectMachine.Proofs.Comparing.Containers

/-!
# ObjectMachine.Proofs.Comparing.Values

The order of values with the built-in comparisons.

An object equals itself; otherwise its kind decides, and kinds do not mix. Numbers with a fraction
apart, the comparison of each kind is consistent if the comparison of what containers contain is,
and so by induction on the number of levels is the comparison of values.

* `Payload.Members` — what a payload contains may be compared.
* `Payload.consistent` — the comparison of the kinds is consistent.
* `Heap.BuiltinOrder` — every object is compared by its kind.
* `Heap.Value` — a value without floats, so many levels deep, whose keys are distinct.
* `Heap.order_consistent` — the comparison of such values is consistent.
-/

namespace ObjectMachine

/-! ### The kinds that contain nothing -/

/-- An order by numbers is consistent. -/
theorem consistent_of_key {α : Type} {c : α → α → Option Ordering} (key : α → Int)
    (hc : ∀ x y, c x y = some (compare (key x) (key y))) : Consistent (fun _ => True) c where
  swap {x y} _ _ := by
    rw [hc, hc, Option.map_some, Int.compare_swap]
  comp {x y z o o'} _ _ _ hxy hyz ho ho' := by
    rw [hc, Option.some.injEq] at hxy hyz ⊢
    cases o with
    | gt => exact absurd rfl ho
    | lt =>
      rw [Int.compare_eq_lt] at hxy
      have hle : key y ≤ key z := by
        cases o' with
        | gt => exact absurd rfl ho'
        | lt => exact Int.le_of_lt (Int.compare_eq_lt.mp hyz)
        | eq => exact Int.le_of_eq (Int.compare_eq_eq.mp hyz)
      exact Int.compare_eq_lt.mpr (by omega)
    | eq =>
      rw [Int.compare_eq_eq] at hxy
      rw [hxy]
      exact hyz

theorem consistent_bools : Consistent (fun _ => True) fun x y => some (compareBools x y) :=
  consistent_of_key (fun x => cond x 1 0) fun x y => by cases x <;> cases y <;> rfl

theorem consistent_ints : Consistent (fun _ => True) fun x y => (Number.int x).compare (.int y) := by
  refine consistent_of_key Int64.toInt fun x y => ?_
  simp only [Number.compare, Int64.lt_iff_toInt_lt, ← Int64.toInt_inj]
  rfl

/-- Strings are compared as lists of bytes. -/
theorem compareBytes_eq (xs ys : List UInt8) :
    some (compareBytes xs ys) =
      orderItems (fun x y => some (compare (x.toNat : Int) y.toNat)) xs ys := by
  induction xs generalizing ys with
  | nil => cases ys <;> rfl
  | cons x xs ih =>
    cases ys with
    | nil => rfl
    | cons y ys =>
      simp only [compareBytes, orderItems, UInt8.lt_iff_toNat_lt]
      rcases Nat.lt_trichotomy x.toNat y.toNat with hxy | hxy | hxy
      · have hlt : compare (x.toNat : Int) y.toNat = .lt := Int.compare_eq_lt.mpr (by omega)
        simp [hxy, hlt]
      · have heq : compare (x.toNat : Int) y.toNat = .eq := Int.compare_eq_eq.mpr (by omega)
        rw [heq, if_neg (by omega), if_neg (by omega), ih]
      · have hgt : compare (x.toNat : Int) y.toNat = .gt := Int.compare_eq_gt.mpr (by omega)
        simp [hxy, Nat.lt_asymm hxy, hgt]

theorem consistent_bytes : Consistent (fun _ => True) fun x y => some (compareBytes x y) := by
  have hbyte := consistent_of_key (c := fun x y : UInt8 => some (compare (x.toNat : Int) y.toNat))
    (fun x => x.toNat) fun _ _ => rfl
  have hlist := hbyte.items.mono (Q := fun _ => True) fun _ _ _ _ => trivial
  rwa [show (fun x y => some (compareBytes x y)) = _ from
    funext fun x => funext fun y => compareBytes_eq x y]

theorem consistent_tasks : Consistent (fun _ => True) fun x y : TaskRef =>
    if x.task = y.task then some .eq else none where
  swap {x y} _ _ := by
    by_cases h : x.task = y.task
    · simp [h]
    · simp [h, Ne.symm h]
  comp {x y z o o'} _ _ _ hxy hyz _ _ := by
    split at hxy <;> cases hxy
    split at hyz <;> cases hyz
    simp_all

/-! ### All kinds -/

namespace Payload

/-- What the payload contains is among the values with `Q`, and it is not a float. -/
def Members (Q : Ref → Prop) (c : Ref → Ref → Option Ordering) : Payload → Prop
  | .float _ => False
  | .array items => ∀ x ∈ items.toList, Q x
  | .hash t => Table Q c t.entries.toList
  | _ => True

/-- Payloads of one kind, in the order that the kind gives them. -/
inductive Ordered (c : Ref → Ref → Option Ordering) : Payload → Payload → Ordering → Prop where
  | bool {x y : Bool} {o : Ordering} : some (compareBools x y) = some o →
      Ordered c (.bool x) (.bool y) o
  | int {x y : Int64} {o : Ordering} : (Number.int x).compare (.int y) = some o →
      Ordered c (.int x) (.int y) o
  | str {x y : ByteArray} {o : Ordering} :
      some (compareBytes x.data.toList y.data.toList) = some o → Ordered c (.str x) (.str y) o
  | array {xs ys : Array Ref} {o : Ordering} : orderItems c xs.toList ys.toList = some o →
      Ordered c (.array xs) (.array ys) o
  | hash {s t : HashTable} {o : Ordering} :
      orderEntries c s.entries.toList t.entries.toList = some o → Ordered c (.hash s) (.hash t) o
  | task {x y : TaskRef} {o : Ordering} : (if x.task = y.task then some .eq else none) = some o →
      Ordered c (.task x) (.task y) o

variable {Q : Ref → Prop} {c : Ref → Ref → Option Ordering} {p q r : Payload} {o o' : Ordering}

theorem orderLeft_eq_some_iff (hp : p.Members Q c) (hq : q.Members Q c) :
    p.orderLeft c q = some o ↔ Ordered c p q o := by
  constructor
  · intro h
    cases p with
    | float => exact hp.elim
    | bool =>
      cases q with
      | bool => exact .bool h
      | _ => cases h
    | int =>
      cases q with
      | int => exact .int h
      | float => exact hq.elim
      | _ => cases h
    | str =>
      cases q with
      | str => exact .str h
      | _ => cases h
    | array =>
      cases q with
      | array => exact .array h
      | _ => cases h
    | hash =>
      cases q with
      | hash => exact .hash h
      | _ => cases h
    | task =>
      cases q with
      | task => exact .task h
      | _ => cases h
    | _ => cases q <;> cases h
  · intro h
    cases h <;> assumption

theorem Ordered.swap (hc : Consistent Q c) (hp : p.Members Q c) (hq : q.Members Q c)
    (h : Ordered c p q o) : Ordered c q p o.swap := by
  cases h with
  | bool h => exact .bool (consistent_bools.swapped trivial trivial h)
  | int h => exact .int (consistent_ints.swapped trivial trivial h)
  | str h => exact .str (consistent_bytes.swapped trivial trivial h)
  | array h => exact .array (hc.items.swapped hp hq h)
  | hash h => exact .hash (hc.entries.swapped hp hq h)
  | task h => exact .task (consistent_tasks.swapped trivial trivial h)

theorem Ordered.comp (hc : Consistent Q c) (hp : p.Members Q c) (hq : q.Members Q c)
    (hr : r.Members Q c) (h : Ordered c p q o) (h' : Ordered c q r o') (ho : o ≠ .gt)
    (ho' : o' ≠ .gt) : Ordered c p r (o.then o') := by
  cases h with
  | bool h =>
    cases h' with
    | bool h' => exact .bool (consistent_bools.comp trivial trivial trivial h h' ho ho')
  | int h =>
    cases h' with
    | int h' => exact .int (consistent_ints.comp trivial trivial trivial h h' ho ho')
  | str h =>
    cases h' with
    | str h' => exact .str (consistent_bytes.comp trivial trivial trivial h h' ho ho')
  | array h =>
    cases h' with
    | array h' => exact .array (hc.items.comp hp hq hr h h' ho ho')
  | hash h =>
    cases h' with
    | hash h' => exact .hash (hc.entries.comp hp hq hr h h' ho ho')
  | task h =>
    cases h' with
    | task h' => exact .task (consistent_tasks.comp trivial trivial trivial h h' ho ho')

/-- The comparison of the kinds is consistent where that of the members is. -/
theorem consistent (hc : Consistent Q c) : Consistent (Members Q c) (orderLeft c) where
  swap {p q} hp hq := by
    cases h : p.orderLeft c q with
    | some o =>
      have hpq := ((orderLeft_eq_some_iff hp hq).mp h).swap hc hp hq
      exact (orderLeft_eq_some_iff hq hp).mpr hpq
    | none =>
      cases h' : q.orderLeft c p with
      | none => rfl
      | some o =>
        have hqp := ((orderLeft_eq_some_iff hq hp).mp h').swap hc hq hp
        rw [(orderLeft_eq_some_iff hp hq).mpr hqp] at h
        cases h
  comp {p q r o o'} hp hq hr h h' ho ho' := by
    have hpq := (orderLeft_eq_some_iff hp hq).mp h
    have hqr := (orderLeft_eq_some_iff hq hr).mp h'
    exact (orderLeft_eq_some_iff hp hr).mpr (hpq.comp hc hp hq hr hqr ho ho')

end Payload

/-! ### Values -/

namespace Heap

/-- The dispatch tables hold the built-in comparisons: every object is compared by its kind. -/
def BuiltinOrder (h : Heap) : Prop :=
  ∀ r o, h.get r = .ok o → ∃ slot, h.findSlot Slots.cmp o.cls = .ok slot ∧ o.payload.Suits slot

/-- No two keys of the table are equal. -/
def KeysUnequal (h : Heap) (t : HashTable) : Prop :=
  t.keys.toList.Pairwise fun k l => h.equals k l = .ok false

/-- A value at most `levels` levels deep that has no float in it, and whose hashes have no equal
keys. -/
def Value (h : Heap) : Nat → Ref → Prop
  | 0, _ => False
  | levels + 1, r => ∃ p, h.payload r = .ok p ∧ (∀ x, p ≠ .float x) ∧
      (∀ t, p = .hash t → h.KeysUnequal t) ∧ ∀ x ∈ p.parts, Value h levels x

variable {h : Heap} {a b : Ref} {m : Nat}

theorem ByKind.builtinOrder (hk : h.ByKind) : h.BuiltinOrder := by
  rintro r ⟨k, p⟩ hr
  obtain ⟨k', slot, hget, hslot, hsuits⟩ := hk.answers (payload_eq_ok_iff.mpr ⟨k, hr⟩)
  rw [hr] at hget
  cases hget
  exact ⟨slot, hslot, hsuits⟩

theorem BuiltinOrder.answers (hs : h.BuiltinOrder) {p : Payload} (hr : h.payload a = .ok p) :
    h.Answers a p := by
  obtain ⟨k, hget⟩ := payload_eq_ok_iff.mp hr
  obtain ⟨slot, hslot, hsuits⟩ := hs a _ hget
  exact ⟨k, slot, hget, hslot, hsuits⟩

theorem Value.nests (hs : h.BuiltinOrder) (ha : h.Value m a) : h.Nests m a := by
  induction m generalizing a with
  | zero => exact ha
  | succ m ih =>
    obtain ⟨p, hp, -, -, hparts⟩ := ha
    exact ⟨p, hs.answers hp, fun x hx => ih (hparts x hx)⟩

/-- The keys of a hash are distinct in the order of the values it contains. -/
theorem table_of_value (hs : h.BuiltinOrder) (hm : m + h.nesting ≤ maxCompareDepth + 1)
    {t : HashTable} (hkeys : h.KeysUnequal t) (hparts : ∀ x ∈ (Payload.hash t).parts, h.Value m x) :
    Table (h.Value m) (h.order m) t.entries.toList := by
  have hkey : ∀ e ∈ t.entries.toList, h.Value m e.1 := by
    intro e he
    apply hparts
    simpa [Payload.parts, HashTable.keys] using .inl ⟨_, Array.mem_toList_iff.mp he⟩
  have hvalue : ∀ e ∈ t.entries.toList, h.Value m e.2 := by
    intro e he
    apply hparts
    simpa [Payload.parts, HashTable.values] using .inr ⟨_, Array.mem_toList_iff.mp he⟩
  refine ⟨hkey, hvalue, ?_⟩
  rw [KeysUnequal, HashTable.keys, Array.toList_map, List.pairwise_map] at hkeys
  refine hkeys.imp_of_mem ?_
  intro e f he hf hne heq
  rw [equals_of_nests hm ((hkey e he).nests hs) ((hkey f hf).nests hs), heq] at hne
  cases hne

theorem members_of_value (hs : h.BuiltinOrder) (hm : m + h.nesting ≤ maxCompareDepth + 1)
    {p : Payload} (hfloat : ∀ x, p ≠ .float x) (hkeys : ∀ t, p = .hash t → h.KeysUnequal t)
    (hparts : ∀ x ∈ p.parts, h.Value m x) : p.Members (h.Value m) (h.order m) := by
  cases p with
  | float x => exact absurd rfl (hfloat x)
  | array items => exact hparts
  | hash t => exact table_of_value hs hm (hkeys t rfl) hparts
  | _ => trivial

theorem bothWays_swap (o : Option Ordering) : bothWays o (o.map Ordering.swap) = o := by
  cases o <;> rfl

/-- By induction on the levels: different objects are compared by their kinds, whose comparison is
consistent because that of one level less is. -/
theorem order_consistent (hs : h.BuiltinOrder) (hm : m + h.nesting ≤ maxCompareDepth + 1) :
    Consistent (h.Value m) (h.order m) := by
  induction m with
  | zero => exact ⟨fun hx => hx.elim, fun hx => hx.elim⟩
  | succ m ih =>
    have hc := Payload.consistent (ih (by omega))
    have hmembers : ∀ {a : Ref}, h.Value (m + 1) a →
        ∃ p, h.payload a = .ok p ∧ p.Members (h.Value m) (h.order m) ∧
          ∀ x ∈ p.parts, h.Nests m x := by
      rintro a ⟨p, hp, hfloat, hkeys, hparts⟩
      exact ⟨p, hp, members_of_value hs (by omega) hfloat hkeys hparts,
        fun x hx => (hparts x hx).nests hs⟩
    have horder : ∀ {a b : Ref} {p q : Payload}, a ≠ b → h.payload a = .ok p →
        p.Members (h.Value m) (h.order m) → (∀ x ∈ p.parts, h.Nests m x) → h.payload b = .ok q →
        q.Members (h.Value m) (h.order m) → (∀ x ∈ q.parts, h.Nests m x) →
        h.order (m + 1) a b = p.orderLeft (h.order m) q := by
      intro a b p q hne ha hp hpn hb hq hqn
      rw [order_of_nests hne (hs.answers ha) hpn (hs.answers hb) hqn, hc.swap hp hq, bothWays_swap]
    have hswap : ∀ {a b : Ref}, h.Value (m + 1) a → h.Value (m + 1) b →
        h.order (m + 1) b a = (h.order (m + 1) a b).map Ordering.swap := by
      intro a b hva hvb
      by_cases hab : a = b
      · subst hab
        simp
      · obtain ⟨p, ha, hp, hpn⟩ := hmembers hva
        obtain ⟨q, hb, hq, hqn⟩ := hmembers hvb
        rw [horder (Ne.symm hab) hb hq hqn ha hp hpn, horder hab ha hp hpn hb hq hqn, hc.swap hp hq]
    refine ⟨hswap, ?_⟩
    intro a b d o o' hva hvb hvd hab hbd ho ho'
    by_cases heq : a = b
    · subst heq
      rw [order_self] at hab
      cases hab
      exact hbd
    by_cases heq' : b = d
    · subst heq'
      rw [order_self] at hbd
      cases hbd
      rw [hab]
      cases o <;> rfl
    by_cases hback : a = d
    · -- there and back: neither step goes down, so neither goes up
      subst hback
      rw [hswap hva hvb, hab] at hbd
      cases hbd
      cases o with
      | lt => exact absurd rfl ho'
      | eq => exact order_self _
      | gt => exact absurd rfl ho
    · obtain ⟨p, ha, hp, hpn⟩ := hmembers hva
      obtain ⟨q, hb, hq, hqn⟩ := hmembers hvb
      obtain ⟨r, hd, hr, hrn⟩ := hmembers hvd
      rw [horder heq ha hp hpn hb hq hqn] at hab
      rw [horder heq' hb hq hqn hd hr hrn] at hbd
      rw [horder hback ha hp hpn hd hr hrn]
      exact hc.comp hp hq hr hab hbd ho ho'

end Heap
end ObjectMachine
