import ObjectMachine.Proofs.Classes.Crashes
import ObjectMachine.Proofs.Comparing.Parts

/-!
# ObjectMachine.Proofs.Comparing.Association

Hashes as association lists.

Equality of keys is partial, and it need not be transitive, so an entry is known by its place: a
look-up goes to the first key that equals the one asked for. What an entry changes by its value is
the hash alone; keys that do not reach the hash are found where they were.

* `Payload.shown` — what the text of an object is made of.
* `Heap.refill` — the heap with another table in a hash.
* `Heap.shares_refill`, `Heap.display_refill` — what does not reach the hash compares as before and
  has the text that it had.
* `Vm.hashSet_found`, `Vm.hashSet_missing`, `Vm.getItem_found`, `Vm.getItem_missing` — the
  operations by the place of the key.
* `Vm.hashSet_association` — the laws.
-/

namespace ObjectMachine

/-- What the text of an object contains the texts of. -/
def Payload.shown : Payload → List Ref
  | .array items => items.toList
  | .hash t => t.keys.toList ++ t.values.toList
  | .var value => value.toList
  | .error e => e.cause.toList
  | _ => []

theorem Payload.parts_shown {p : Payload} {r : Ref} (hr : r ∈ p.parts) : r ∈ p.shown := by
  cases p with
  | array items => exact hr
  | hash t => exact hr
  | _ => cases hr

namespace Heap

variable {h : Heap} {x r s : Ref} {t u : HashTable}

theorem Spans.mono {edges edges' : Payload → List Ref} (he : ∀ p, ∀ y ∈ edges p, y ∈ edges' p)
    (hs : h.Spans edges r s) : h.Spans edges' r s := by
  induction hs with
  | self => exact .self
  | next _ hp hy ih => exact .next ih hp (he _ _ hy)

/-- What holds nothing consists of itself. -/
theorem Spans.eq_of_leaf {edges : Payload → List Ref} {p : Payload} (hp : h.payload r = .ok p)
    (hleaf : edges p = []) (hs : h.Spans edges r s) : s = r := by
  induction hs with
  | self => rfl
  | next _ hp' hy ih =>
    subst ih
    rw [hp] at hp'
    cases hp'
    rw [hleaf] at hy
    cases hy

/-! ## Another table -/

/-- The heap after a hash has got another table. -/
def refill (h : Heap) (x : Ref) (u : HashTable) : Heap :=
  h.update x (Payload.setTable u)

theorem payload_refill_self (hx : h.payload x = .ok (.hash t)) :
    (h.refill x u).payload x = .ok (.hash u) := by
  obtain ⟨k, hk⟩ := payload_eq_ok_iff.mp hx
  refine payload_eq_ok_iff.mpr ⟨k, ?_⟩
  rw [refill, get_update_of_get hk, if_pos rfl]
  rfl

theorem get_refill_ne (hx : h.contains x = true) (hne : r ≠ x) {o : Obj} (ho : h.get r = .ok o) :
    (h.refill x u).get r = .ok o := by
  rw [refill, get_update_of_get ho, if_neg]
  intro hcell
  exact hne (eq_of_cell_eq hx (contains_of_get ho) hcell).symm

/-- Objects keep their classes. -/
theorem classOf_refill : (h.refill x u).classOf r = h.classOf r := by
  simp only [classOf, refill, get_update]
  cases h.get r with
  | error e => rfl
  | ok o =>
    simp only [Except.map]
    split <;> rfl

/-- Nothing but the table of a hash is another. -/
theorem payload_refill_cases : (h.refill x u).payload r = h.payload r ∨
    ∃ t, h.payload r = .ok (.hash t) ∧ (h.refill x u).payload r = .ok (.hash u) := by
  simp only [Heap.payload, refill, get_update]
  cases h.get r with
  | error e => exact .inl rfl
  | ok o =>
    simp only [Except.map]
    split
    · cases hp : o.payload with
      | hash t => exact .inr ⟨t, rfl, rfl⟩
      | _ => exact .inl rfl
    · exact .inl rfl

theorem cls_refill : (h.refill x u).cls r = h.cls r := by
  unfold cls
  rcases payload_refill_cases (h := h) (x := x) (u := u) (r := r) with heq | ⟨t, ht, heq⟩
  · rw [heq]
  · rw [heq, ht]
    rfl

theorem findFrom_refill {α : Type} (pick : Class → Option α) : ∀ (fuel : Nat) (r : Ref),
    (h.refill x u).findFrom pick fuel r = h.findFrom pick fuel r := by
  intro fuel
  induction fuel with
  | zero => exact fun _ => rfl
  | succ fuel ih =>
    intro r
    simp only [findFrom, cls_refill, ih]

theorem findSlot_refill {α : Type} (pick : Slots → Option α) :
    (h.refill x u).findSlot pick r = h.findSlot pick r := by
  have hsize : (h.refill x u).cells.size = h.cells.size := by simp [refill, update]
  rw [findSlot, findSlot, findInChain, findInChain, hsize]
  exact findFrom_refill _ _ _

/-- What is compared by its kind stays so. -/
theorem Answers.refill (hx : h.contains x = true) (hne : r ≠ x) {p : Payload}
    (hr : h.Answers r p) : (h.refill x u).Answers r p := by
  obtain ⟨k, slot, hget, hslot, hsuits⟩ := hr
  exact ⟨k, slot, get_refill_ne hx hne hget, by rw [findSlot_refill, hslot], hsuits⟩

/-- Live, and without the hash among its parts. -/
def Avoids (h : Heap) (x r : Ref) : Prop :=
  h.contains r = true ∧ ¬ h.Spans Payload.parts r x

theorem shares_refill (hs : h.Sound) (hb : h.BuiltinOrder) (hx : h.contains x = true) :
    h.Shares (h.refill x u) (h.Avoids x) where
  nesting := rfl
  answers := by
    rintro r ⟨hr, hspan⟩
    obtain ⟨p, hp⟩ := Sound.payload hr
    have hne : r ≠ x := by
      rintro rfl
      exact hspan .self
    refine ⟨p, hb.answers hp, (hb.answers hp).refill hx hne, fun y hy => ⟨?_, fun hyx => ?_⟩⟩
    · refine hs.closed.refs_live hp ?_
      cases p with
      | array items => exact hy
      | hash t => exact hy
      | _ => cases hy
    · exact hspan (.head hp hy hyx)

/-! ## Texts -/

theorem mapM_congr {α β ε : Type} {f g : α → Except ε β} : ∀ {xs : List α},
    (∀ a ∈ xs, f a = g a) → xs.mapM f = xs.mapM g := by
  intro xs
  induction xs with
  | nil => exact fun _ => rfl
  | cons a xs ih =>
    intro h
    rw [List.mapM_cons, List.mapM_cons, h a (.head _), ih fun b hb => h b (.tail _ hb)]

theorem displayEntry_congr {print print' : Printer} {t : HashTable}
    (hprint : ∀ y ∈ (Payload.hash t).shown, print' y = print y) :
    ∀ e ∈ t.entries.toList, displayEntry print' e = displayEntry print e := by
  intro e he
  rw [Array.mem_toList_iff] at he
  have hkey := hprint e.1
    (List.mem_append_left _ (Array.mem_toList_iff.mpr (Array.mem_map_of_mem he)))
  have hvalue := hprint e.2
    (List.mem_append_right _ (Array.mem_toList_iff.mpr (Array.mem_map_of_mem he)))
  simp only [displayEntry, hkey, hvalue]

/-- A display function writes the same if it is given the same texts for what the object shows. -/
theorem run_refill {print print' : Printer} {o : Obj} (f : StrFn)
    (hprint : ∀ y ∈ o.payload.shown, print' y = print y) :
    f.run (h.refill x u) print' r o = f.run h print r o := by
  obtain ⟨k, p⟩ := o
  cases f with
  | array =>
    cases p with
    | array items =>
      have hitems : items.toList.mapM print' = items.toList.mapM print := mapM_congr hprint
      simp only [StrFn.run, displayItems, hitems]
    | _ => rfl
  | hash =>
    cases p with
    | hash t => simp only [StrFn.run, displayEntries, mapM_congr (displayEntry_congr hprint)]
    | _ => rfl
  | var =>
    cases p with
    | var value =>
      cases value with
      | none => rfl
      | some v => simp only [StrFn.run, hprint v (List.mem_singleton.mpr rfl)]
    | _ => rfl
  | error =>
    cases p with
    | error e =>
      cases hc : e.cause with
      | none => simp only [StrFn.run, hc]
      | some c =>
        have hcause : c ∈ (Payload.error e).shown := by simp [Payload.shown, hc]
        simp only [StrFn.run, hc, hprint c hcause]
    | _ => rfl
  | frame =>
    cases p with
    | frame d =>
      rcases payload_refill_cases (h := h) (x := x) (u := u) (r := d.method) with heq | ⟨t, ht, heq⟩
      · simp only [StrFn.run, heq]
      · simp only [StrFn.run, heq, ht]
        rfl
    | _ => rfl
  | object | cls => simp only [StrFn.run, cls_refill]
  | bool =>
    cases p with
    | bool b => cases b <;> rfl
    | _ => rfl
  | _ => cases p <;> rfl

/-- The text of an object that does not show the hash. -/
theorem displayWithin_refill (hx : h.contains x = true) : ∀ (levels : Nat) {r : Ref},
    ¬ h.Spans Payload.shown r x →
    (h.refill x u).displayWithin levels r = h.displayWithin levels r := by
  intro levels
  induction levels with
  | zero => exact fun _ => rfl
  | succ levels ih =>
    intro r hr
    cases ho : h.get r with
    | error e =>
      have ho' : (h.refill x u).get r = .error e := by
        rw [refill, get_update, ho]
        rfl
      simp only [displayWithin, ho, ho', bind, Except.bind]
    | ok o =>
      have hne : r ≠ x := by
        rintro rfl
        exact hr .self
      have hprint : ∀ y ∈ o.payload.shown,
          (h.refill x u).displayWithin levels y = h.displayWithin levels y := fun y hy =>
        ih fun hyx => hr (.head (payload_eq_ok_iff.mpr ⟨o.cls, ho⟩) hy hyx)
      simp only [displayWithin, ho, get_refill_ne hx hne ho, cls_refill, bind, Except.bind]
      cases h.cls o.cls with
      | error e => rfl
      | ok c =>
        cases hf : c.slots.str with
        | none => simp only [hf]
        | some f => simp only [hf, run_refill f hprint]

theorem display_refill (hx : h.contains x = true) (hr : ¬ h.Spans Payload.shown r x) :
    (h.refill x u).display r = h.display r :=
  displayWithin_refill hx _ hr

/-! ## Places of keys -/

theorem equals_eq_true : h.equals r s = .ok true ↔ h.compare r s = .ok (some .eq) := by
  unfold equals
  cases h.compare r s with
  | error e => simp
  | ok o => rcases o with _ | _ | _ | _ <;> simp

theorem equals_eq_false : h.equals r s = .ok false ↔ ∃ o, h.compare r s = .ok o ∧ o ≠ some .eq := by
  unfold equals
  cases h.compare r s with
  | error e => simp
  | ok o => rcases o with _ | _ | _ | _ <;> simp

theorem equals_self : h.equals r r = .ok true := by
  rw [equals_eq_true, Heap.compare]
  generalize maxCompareDepth + 1 - h.nesting = levels
  cases levels <;> simp [compareWithin]

/-- The first of the keys that equals `key` stands at place `i`. -/
def FirstAt (h : Heap) (ks : List Ref) (key : Ref) (i : Nat) : Prop :=
  (∃ k, ks[i]? = some k ∧ h.equals k key = .ok true) ∧
    ∀ j < i, ∀ k, ks[j]? = some k → h.equals k key = .ok false

theorem firstAt_zero {k key : Ref} {ks : List Ref} :
    h.FirstAt (k :: ks) key 0 ↔ h.equals k key = .ok true := by
  simp [FirstAt]

theorem firstAt_succ {k key : Ref} {ks : List Ref} {i : Nat} :
    h.FirstAt (k :: ks) key (i + 1) ↔ h.equals k key = .ok false ∧ h.FirstAt ks key i := by
  constructor
  · rintro ⟨hat, hbefore⟩
    exact ⟨hbefore 0 (Nat.succ_pos i) k rfl, hat,
      fun j hj l hl => hbefore (j + 1) (Nat.succ_lt_succ hj) l hl⟩
  · rintro ⟨hk, hat, hbefore⟩
    refine ⟨hat, fun j hj l hl => ?_⟩
    cases j with
    | zero =>
      cases hl
      exact hk
    | succ j => exact hbefore j (Nat.lt_of_succ_lt_succ hj) l hl

/-- The search asks whether the keys are equal, one after the other. -/
theorem positionIn_cons {k key : Ref} {ks : List Ref} {start : Nat} :
    positionIn h.compare key start (k :: ks) = h.equals k key >>= fun equal =>
      if equal then .ok (some start) else positionIn h.compare key (start + 1) ks := by
  unfold equals
  simp only [positionIn]
  cases h.compare k key with
  | error e => rfl
  | ok o => rcases o with _ | _ | _ | _ <;> rfl

/-- The search counts from `start`. -/
theorem positionIn_eq_some {key : Ref} : ∀ {ks : List Ref} {start n : Nat},
    positionIn h.compare key start ks = .ok (some n) ↔
      ∃ i, n = start + i ∧ h.FirstAt ks key i := by
  intro ks
  induction ks with
  | nil => simp [positionIn, FirstAt]
  | cons k ks ih =>
    intro start n
    rw [positionIn_cons]
    constructor
    · intro hpos
      obtain ⟨equal, hk, hpos⟩ := except_bind_eq_ok.mp hpos
      cases equal with
      | true =>
        cases hpos
        exact ⟨0, rfl, firstAt_zero.mpr hk⟩
      | false =>
        obtain ⟨i, rfl, hi⟩ := ih.mp hpos
        exact ⟨i + 1, by omega, firstAt_succ.mpr ⟨hk, hi⟩⟩
    · rintro ⟨i, rfl, hi⟩
      cases i with
      | zero => exact except_bind_eq_ok.mpr ⟨true, firstAt_zero.mp hi, rfl⟩
      | succ i =>
        obtain ⟨hk, hi⟩ := firstAt_succ.mp hi
        exact except_bind_eq_ok.mpr ⟨false, hk, ih.mpr ⟨i, by omega, hi⟩⟩

theorem position?_eq_some {key : Ref} {i : Nat} :
    h.position? t key = .ok (some i) ↔ h.FirstAt t.keys.toList key i := by
  rw [position?, positionIn_eq_some]
  simp

theorem positionIn_eq_none {key : Ref} : ∀ {ks : List Ref} (start : Nat),
    positionIn h.compare key start ks = .ok none ↔ ∀ k ∈ ks, h.equals k key = .ok false := by
  intro ks
  induction ks with
  | nil => simp [positionIn]
  | cons k ks ih =>
    intro start
    rw [List.forall_mem_cons, ← ih (start + 1), positionIn_cons, except_bind_eq_ok]
    simp

theorem position?_eq_none {key : Ref} :
    h.position? t key = .ok none ↔ ∀ k ∈ t.keys, h.equals k key = .ok false := by
  rw [position?, positionIn_eq_none]
  simp only [Array.mem_toList_iff]

theorem FirstAt.append {ks ls : List Ref} {key : Ref} {i : Nat} (hi : h.FirstAt ks key i)
    (hkl : ks <+: ls) : h.FirstAt ls key i := by
  obtain ⟨ms, rfl⟩ := hkl
  obtain ⟨⟨k, hk, heq⟩, hbefore⟩ := hi
  have hlt : i < ks.length := (List.getElem?_eq_some_iff.mp hk).1
  refine ⟨⟨k, by rw [List.getElem?_append_left hlt, hk], heq⟩, fun j hj l hl => ?_⟩
  rw [List.getElem?_append_left (by omega)] at hl
  exact hbefore j hj l hl

/-- A key after all others, none of which equals the one asked for. -/
theorem firstAt_last {ks : List Ref} {k key : Ref} (hks : ∀ l ∈ ks, h.equals l key = .ok false)
    (hk : h.equals k key = .ok true) : h.FirstAt (ks ++ [k]) key ks.length := by
  refine ⟨⟨k, by simp, hk⟩, fun j hj l hl => ?_⟩
  rw [List.getElem?_append_left hj] at hl
  exact hks l (List.mem_of_getElem? hl)

theorem Shares.firstAt {h' : Heap} {S : Ref → Prop} (hs : h.Shares h' S) {ks : List Ref}
    {key : Ref} {i : Nat} (hks : ∀ k ∈ ks, S k) (hkey : S key) (hi : h.FirstAt ks key i) :
    h'.FirstAt ks key i := by
  obtain ⟨⟨k, hk, heq⟩, hbefore⟩ := hi
  refine ⟨⟨k, hk, ?_⟩, fun j hj l hl => ?_⟩
  · rw [hs.equals (hks k (List.mem_of_getElem? hk)) hkey, heq]
  · rw [hs.equals (hks l (List.mem_of_getElem? hl)) hkey, hbefore j hj l hl]

/-- Indexing the object is a look-up in a table. -/
def Indexed (h : Heap) (x : Ref) : Prop :=
  ∃ k, h.classOf x = .ok k ∧ h.findSlot Slots.getItem k = .ok (some .hash)

theorem Indexed.refill (hx : h.Indexed x) (u : HashTable) : (h.refill x u).Indexed x := by
  obtain ⟨k, hk, hslot⟩ := hx
  exact ⟨k, classOf_refill.trans hk, (findSlot_refill _).trans hslot⟩

end Heap

/-! ## Tables -/

namespace HashTable

/-- `u` is `t` with the value at place `i`: that of an entry, or the next free one, which gets the
key too. -/
inductive Puts (key value : Ref) (t : HashTable) (i : Nat) : HashTable → Prop where
  | replace : i < t.size → Puts key value t i ⟨t.entries.modify i fun e => (e.1, value)⟩
  | append : i = t.size → Puts key value t i ⟨t.entries.push (key, value)⟩

variable {key value : Ref} {t u : HashTable} {i : Nat}

theorem keys_modify : (HashTable.mk (t.entries.modify i fun e => (e.1, value))).keys = t.keys := by
  apply Array.ext_getElem?
  intro j
  simp only [keys, Array.getElem?_map, Array.getElem?_modify]
  split
  · cases t.entries[j]? <;> rfl
  · rfl

theorem keys_push :
    (HashTable.mk (t.entries.push (key, value))).keys.toList = t.keys.toList ++ [key] := by
  simp [keys]

theorem getElem?_keys {j : Nat} : t.keys[j]? = t.entries[j]?.map Prod.fst := by
  simp [keys]

namespace Puts

theorem keys (h : Puts key value t i u) : t.keys.toList <+: u.keys.toList := by
  cases h with
  | replace => rw [keys_modify]
  | append => exact ⟨[key], keys_push.symm⟩

theorem written (h : Puts key value t i u) : ∃ k, u.entries[i]? = some (k, value) := by
  cases h with
  | replace hi =>
    obtain ⟨e, he⟩ : ∃ e, t.entries[i]? = some e := ⟨_, Array.getElem?_eq_getElem hi⟩
    exact ⟨e.1, by simp [Array.getElem?_modify, he]⟩
  | append hi =>
    subst hi
    exact ⟨key, by simp [size]⟩

theorem others (h : Puts key value t i u) {j : Nat} (hj : j ≠ i) :
    u.entries[j]? = t.entries[j]? := by
  cases h with
  | replace => simp [Array.getElem?_modify, hj.symm]
  | append hi =>
    subst hi
    simp only [Array.getElem?_push]
    exact if_neg hj

theorem size (h : Puts key value t i u) :
    u.size = t.size ∧ i < t.size ∨ u.size = t.size + 1 ∧ i = t.size := by
  cases h with
  | replace hi => exact .inl ⟨by simp [HashTable.size], hi⟩
  | append hi => exact .inr ⟨by simp [HashTable.size], hi⟩

end Puts
end HashTable

/-! ## The operations -/

namespace Vm

open ObjectMachine.Action

/-- The task after a hash has got another table. -/
def refill (vm : Vm) (hash : Ref) (u : HashTable) : Vm :=
  { vm with heap := vm.heap.refill hash u }

variable {vm : Vm} {hash key value : Ref} {t : HashTable}

@[simp] theorem refill_heap {u : HashTable} : (vm.refill hash u).heap = vm.heap.refill hash u := rfl

theorem refill_payload (ht : vm.heap.payload hash = .ok (.hash t)) (u : HashTable) :
    (vm.refill hash u).heap.payload hash = .ok (.hash u) :=
  Heap.payload_refill_self ht

theorem refill_indexed (hindex : vm.heap.Indexed hash) (u : HashTable) :
    (vm.refill hash u).heap.Indexed hash :=
  hindex.refill u

/-- A look-up in a table has an answer. -/
theorem position?_cases (hs : vm.heap.Sound) (ht : vm.heap.payload hash = .ok (.hash t))
    (hkey : vm.heap.contains key = true) :
    (∃ i, vm.heap.position? t key = .ok (some i) ∧ vm.heap.FirstAt t.keys.toList key i) ∨
      vm.heap.position? t key = .ok none ∧ ∀ k ∈ t.keys, vm.heap.equals k key = .ok false := by
  obtain ⟨found, hfound⟩ := positionIn_answered hs.compare hkey
    (fun k hk => hs.closed.refs_live ht (HashTable.key_mem_refs hk)) 0
  cases found with
  | some i => exact .inl ⟨i, hfound, Heap.position?_eq_some.mp hfound⟩
  | none => exact .inr ⟨hfound, Heap.position?_eq_none.mp hfound⟩

/-- The two ways of putting an entry in a hash. -/
theorem hashSet_puts (value : Ref) (hs : vm.heap.Sound)
    (ht : vm.heap.payload hash = .ok (.hash t)) (hkey : vm.heap.contains key = true) :
    ∃ u i, HashTable.Puts key value t i u ∧
      hashSet hash key value vm = .ok () (vm.refill hash u) ∧
      (vm.heap.FirstAt t.keys.toList key i ∧ u.keys = t.keys ∨
        (∀ k ∈ t.keys, vm.heap.equals k key = .ok false) ∧ i = t.size ∧
          u.keys.toList = t.keys.toList ++ [key]) := by
  unfold hashSet
  rw [bind_ok (payload_eq_ok.mpr ⟨ht, rfl⟩)]
  rcases position?_cases hs ht hkey with ⟨i, hpos, hfirst⟩ | ⟨hpos, hnone⟩
  · have hlt : i < t.size := by
      obtain ⟨k, hk, -⟩ := hfirst.1
      simpa [HashTable.keys, HashTable.size] using (List.getElem?_eq_some_iff.mp hk).1
    refine ⟨_, i, .replace hlt, ?_, .inl ⟨hfirst, HashTable.keys_modify⟩⟩
    exact bind_ok (ofHeap_run (g := fun h => h.position? t key) hpos)
  · refine ⟨_, t.size, .append rfl, ?_, .inr ⟨hnone, rfl, HashTable.keys_push⟩⟩
    exact bind_ok (ofHeap_run (g := fun h => h.position? t key) hpos)

theorem getItem_eq (hindex : vm.heap.Indexed hash) :
    getItem hash key vm = runGetItem .hash hash key vm := by
  obtain ⟨k, hk, hslot⟩ := hindex
  have hfound : vm.heap.requireSlot .getItem Slots.getItem k = .ok .hash := by
    unfold Heap.requireSlot
    rw [hslot]
    rfl
  have hrequire : require .getItem Slots.getItem hash vm = .ok .hash vm := by
    refine ofHeap_run ?_
    rw [hk]
    exact hfound
  exact bind_ok hrequire

/-- Indexing with a key that is there. -/
theorem getItem_found (hindex : vm.heap.Indexed hash) (ht : vm.heap.payload hash = .ok (.hash t))
    {i : Nat} {k v : Ref} (hfirst : vm.heap.FirstAt t.keys.toList key i)
    (he : t.entries[i]? = some (k, v)) : getItem hash key vm = .ok v vm := by
  have htable : tableOf hash vm = .ok t vm := bind_ok (payload_eq_ok.mpr ⟨ht, rfl⟩)
  have hpos := ofHeap_run (g := fun h => h.position? t key) (Heap.position?_eq_some.mpr hfirst)
  rw [getItem_eq hindex, runGetItem, bind_ok htable, bind_ok hpos]
  simp only [he]
  rfl

/-- The failure of a look-up. -/
def refuseItem (hash key : Ref) : Action Ref := do
  let c ← className hash
  let k ← display key
  Action.raise (.noItem c k)

/-- Indexing with a key that is not there. -/
theorem getItem_missing (hindex : vm.heap.Indexed hash) (ht : vm.heap.payload hash = .ok (.hash t))
    (hnone : ∀ k ∈ t.keys, vm.heap.equals k key = .ok false) :
    getItem hash key vm = refuseItem hash key vm := by
  have htable : tableOf hash vm = .ok t vm := bind_ok (payload_eq_ok.mpr ⟨ht, rfl⟩)
  have hpos := ofHeap_run (g := fun h => h.position? t key) (Heap.position?_eq_none.mpr hnone)
  rw [getItem_eq hindex, runGetItem, bind_ok htable, bind_ok hpos, refuseItem]

/-- It is the same with another table. -/
theorem refuseItem_refill {u : HashTable} (hx : vm.heap.contains hash = true)
    (hkey : ¬ vm.heap.Spans Payload.shown key hash) :
    refuseItem hash key (vm.refill hash u) =
      mapState (fun _ => vm.refill hash u) (refuseItem hash key vm) := by
  have hclass : (vm.refill hash u).heap.className hash = vm.heap.className hash := by
    simp only [refill_heap, Heap.className, Heap.classOf_refill, Heap.cls_refill]
  have hdisplay : (vm.refill hash u).heap.display key = vm.heap.display key :=
    Heap.display_refill hx hkey
  simp only [refuseItem, bind_run, className, display, Action.ofHeap, hclass]
  cases vm.heap.className hash with
  | error e => rfl
  | ok c =>
    dsimp only
    rw [hdisplay]
    cases vm.heap.display key <;> rfl

/-- The new value is found under its key, if neither the key nor another one reaches the hash. -/
theorem getItem_put {u : HashTable} {i : Nat} (hs : vm.heap.Sound) (hb : vm.heap.BuiltinOrder)
    (hindex : vm.heap.Indexed hash) (ht : vm.heap.payload hash = .ok (.hash t))
    (hkeys : ∀ k ∈ t.keys.toList, vm.heap.Avoids hash k) (hkey : vm.heap.Avoids hash key)
    (hputs : HashTable.Puts key value t i u)
    (hplace : vm.heap.FirstAt t.keys.toList key i ∧ u.keys = t.keys ∨
      (∀ k ∈ t.keys, vm.heap.equals k key = .ok false) ∧ i = t.size ∧
        u.keys.toList = t.keys.toList ++ [key]) :
    getItem hash key (vm.refill hash u) = .ok value (vm.refill hash u) := by
  have hshares := Heap.shares_refill (u := u) hs hb (Heap.contains_of_payload ht)
  obtain ⟨k, hk⟩ := hputs.written
  refine getItem_found (refill_indexed hindex u) (refill_payload ht u) ?_ hk
  rcases hplace with ⟨hfirst, hu⟩ | ⟨hnone, rfl, hu⟩
  · rw [hu]
    exact hshares.firstAt hkeys hkey hfirst
  · have hbefore : ∀ l ∈ t.keys.toList, (vm.heap.refill hash u).equals l key = .ok false := by
      intro l hl
      rw [hshares.equals (hkeys l hl) hkey]
      exact hnone l (Array.mem_toList_iff.mp hl)
    have hlast := Heap.firstAt_last hbefore Heap.equals_self
    rw [hu]
    simpa [HashTable.keys, HashTable.size] using hlast

/-- With another key that does not lead to the new value one finds what one found before. -/
theorem getItem_beside {u : HashTable} {i : Nat} {other : Ref} (hs : vm.heap.Sound)
    (hb : vm.heap.BuiltinOrder) (hindex : vm.heap.Indexed hash)
    (ht : vm.heap.payload hash = .ok (.hash t))
    (hkeys : ∀ k ∈ t.keys.toList, vm.heap.Avoids hash k) (hkey : vm.heap.Avoids hash key)
    (hother : vm.heap.contains other = true) (hshown : ¬ vm.heap.Spans Payload.shown other hash)
    (hputs : HashTable.Puts key value t i u)
    (hplace : u.keys = t.keys ∨ i = t.size ∧ u.keys.toList = t.keys.toList ++ [key])
    (hnot : ¬ (vm.heap.refill hash u).FirstAt u.keys.toList other i) :
    getItem hash other (vm.refill hash u) =
      mapState (fun _ => vm.refill hash u) (getItem hash other vm) := by
  have hx := Heap.contains_of_payload ht
  have hshares := Heap.shares_refill (u := u) hs hb hx
  have havoids : vm.heap.Avoids hash other :=
    ⟨hother, fun h => hshown (h.mono fun _ _ => Payload.parts_shown)⟩
  have ht' := refill_payload ht u
  rcases position?_cases hs ht hother with ⟨j, -, hfirst⟩ | ⟨-, hnone⟩
  · have hfirst' := (hshares.firstAt hkeys havoids hfirst).append hputs.keys
    have hji : j ≠ i := by
      rintro rfl
      exact hnot hfirst'
    obtain ⟨k, hk, -⟩ := hfirst.1
    rw [Array.getElem?_toList, HashTable.getElem?_keys] at hk
    obtain ⟨⟨k', v⟩, he, -⟩ := Option.map_eq_some_iff.mp hk
    rw [getItem_found hindex ht hfirst he,
      getItem_found (refill_indexed hindex u) ht' hfirst' ((hputs.others hji).trans he)]
    rfl
  · have hnone' : ∀ l ∈ t.keys.toList, (vm.heap.refill hash u).equals l other = .ok false :=
      fun l hl => by
        rw [hshares.equals (hkeys l hl) havoids]
        exact hnone l (Array.mem_toList_iff.mp hl)
    have hall : ∀ l ∈ u.keys, (vm.heap.refill hash u).equals l other = .ok false := by
      rcases hplace with hu | ⟨rfl, hu⟩
      · rw [hu]
        exact fun l hl => hnone' l (Array.mem_toList_iff.mpr hl)
      · intro l hl
        rw [← Array.mem_toList_iff, hu, List.mem_append, List.mem_singleton] at hl
        rcases hl with hl | rfl
        · exact hnone' l hl
        · obtain ⟨o, ho⟩ := hs.compare l other hkey.1 hother
          have heq : (vm.heap.refill hash u).equals l other = .ok (o == some .eq) := by
            rw [hshares.equals hkey havoids, Heap.equals, ho]
          cases hoe : (o == some Ordering.eq) with
          | false => rw [heq, hoe]
          | true =>
            rw [hoe] at heq
            have hlast := Heap.firstAt_last hnone' heq
            rw [hu] at hnot
            exact absurd (by simpa [HashTable.keys, HashTable.size] using hlast) hnot
    rw [getItem_missing hindex ht hnone, getItem_missing (refill_indexed hindex u) ht' hall,
      refuseItem_refill hx hshown]

/-- The laws of an association list, for keys of any kinds: whether they can be compared with each
other or not, and whether or not their equality is transitive. A hash that is reached neither by one
of its keys nor by the key that is put in keeps its entries and their order; the entry is found
under its key, and other keys lead to what they led to, unless they lead to the new value. -/
theorem hashSet_association (vm : Vm) (hash key value : Ref) (t : HashTable) (hs : vm.heap.Sound)
    (hb : vm.heap.BuiltinOrder) (hindex : vm.heap.Indexed hash)
    (ht : vm.heap.payload hash = .ok (.hash t)) (hlive : vm.heap.contains key = true)
    (hkey : ¬ vm.heap.Spans Payload.parts key hash)
    (hkeys : ∀ k ∈ t.keys, ¬ vm.heap.Spans Payload.parts k hash) :
    ∃ (u : HashTable) (i : Nat) (vm' : Vm), hashSet hash key value vm = .ok () vm' ∧
      vm' = { vm with heap := vm.heap.update hash (Payload.setTable u) } ∧
      vm'.heap.payload hash = .ok (.hash u) ∧ u.keys.size = u.values.size ∧
      t.keys.toList <+: u.keys.toList ∧ u.values[i]? = some value ∧
      (∀ j, j ≠ i → u.entries[j]? = t.entries[j]?) ∧
      (u.size = t.size ∨ u.size = t.size + 1) ∧
      (u.size = t.size + 1 ↔ ∀ k ∈ t.keys, vm.heap.equals k key = .ok false) ∧
      getItem hash key vm' = .ok value vm' ∧
      ∀ other, vm.heap.contains other = true → ¬ vm.heap.Spans Payload.shown other hash →
        (vm'.heap.FirstAt u.keys.toList other i → getItem hash other vm' = .ok value vm') ∧
        (¬ vm'.heap.FirstAt u.keys.toList other i →
          getItem hash other vm' = mapState (fun _ => vm') (getItem hash other vm)) := by
  have havoids : ∀ k ∈ t.keys.toList, vm.heap.Avoids hash k := fun k hk =>
    ⟨hs.closed.refs_live ht (HashTable.key_mem_refs hk), hkeys k (Array.mem_toList_iff.mp hk)⟩
  obtain ⟨u, i, hputs, hrun, hplace⟩ := hashSet_puts value hs ht hlive
  have ht' := refill_payload ht u
  obtain ⟨k, hk⟩ := hputs.written
  refine ⟨u, i, vm.refill hash u, hrun, rfl, ht', by simp [HashTable.keys, HashTable.values],
    hputs.keys, by simp [HashTable.values, hk], fun j => hputs.others, ?_, ?_,
    getItem_put hs hb hindex ht havoids ⟨hlive, hkey⟩ hputs hplace, fun other hother hshown => ?_⟩
  · exact hputs.size.imp And.left And.left
  · rcases hplace with ⟨⟨⟨l, hl, heq⟩, -⟩, hu⟩ | ⟨hnone, rfl, -⟩
    · refine iff_of_false (fun hsize => ?_) fun hnone => ?_
      · have := congrArg Array.size hu
        simp only [HashTable.keys, Array.size_map] at this
        simp only [HashTable.size] at hsize
        omega
      · rw [hnone l (Array.mem_toList_iff.mp (List.mem_of_getElem? hl))] at heq
        cases heq
    · exact iff_of_true (by rcases hputs.size with h | h <;> omega) hnone
  · have hsame : u.keys = t.keys ∨ i = t.size ∧ u.keys.toList = t.keys.toList ++ [key] :=
      hplace.imp And.right And.right
    exact ⟨fun hfirst => getItem_found (refill_indexed hindex u) ht' hfirst hk,
      getItem_beside hs hb hindex ht havoids ⟨hlive, hkey⟩ hother hshown hputs hsame⟩

theorem withTruths_sound : withTruths.heap.Sound := by
  have hboot := (Session.boot_live {} {} 0 ⟨0, 0⟩).vm_live.heap
  have hadmits := hboot.admits_builtin (k := .hash) (p := .hash truths) rfl (by decide +kernel)
    (by rintro _ ⟨⟩)
  unfold withTruths
  rw [new_eq]
  exact hboot.place hadmits

/-- A third key is put in a hash with two keys, and found. -/
theorem hashSet_association_truths :
    withTruths.heap.Sound ∧ withTruths.heap.BuiltinOrder ∧ withTruths.heap.Indexed truthsRef ∧
    withTruths.heap.payload truthsRef = .ok (.hash truths) ∧
    ∃ vm, hashSet truthsRef (nilRef 0) (boolRef 0 true) withTruths = .ok () vm ∧
      getItem truthsRef (nilRef 0) vm = .ok (boolRef 0 true) vm := by
  have hslots := withTruths_regular.heap.toByKind.builtinOrder
  have hindex : withTruths.heap.Indexed truthsRef :=
    ⟨Builtin.hash.ref 0, by decide +kernel, by decide +kernel⟩
  have hkey : ¬ withTruths.heap.Spans Payload.parts (nilRef 0) truthsRef := fun h => by
    cases h.eq_of_leaf payload_truths_nil rfl
  have hkeys : ∀ k ∈ truths.keys, ¬ withTruths.heap.Spans Payload.parts k truthsRef := by
    intro k hk h
    obtain ⟨i, hi⟩ := Array.mem_iff_getElem?.mp hk
    obtain ⟨b, rfl, -⟩ := keys_truths hi
    have heq := h.eq_of_leaf (payload_truths_bool b) rfl
    cases b <;> cases heq
  obtain ⟨-, -, vm, hrun, -, -, -, -, -, -, -, -, hfound, -⟩ :=
    hashSet_association withTruths truthsRef (nilRef 0) (boolRef 0 true) truths withTruths_sound
      hslots hindex payload_truths (Heap.contains_of_payload payload_truths_nil) hkey hkeys
  exact ⟨withTruths_sound, hslots, hindex, payload_truths, vm, hrun, hfound⟩

end Vm
end ObjectMachine
