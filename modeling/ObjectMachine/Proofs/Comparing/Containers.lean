import Mathlib.Data.Fintype.EquivFin
import ObjectMachine.Proofs.Copying.TreeOrder

/-!
# ObjectMachine.Proofs.Comparing.Containers

Laws that pass from the order of the members to the order of the containers.

A three-way comparison that may have no answer is consistent on some values if turning the operands
round turns the answer round, and if two steps that do not go down make one that does not either.
Lexicographic order is consistent where the order of the items is. So is the order of tables, which
only knows equality: an entry looks for its partner in one direction only, but between tables of
the same size whose keys are distinct the search leaves no entry of the other table out.

* `Consistent` — the two laws.
* `Consistent.items` — they hold of lists.
* `Matches.equiv` — partners correspond one to one.
* `Matches.symm` — the search for partners succeeds in both directions or in none.
* `Consistent.entries` — the laws hold of tables.
-/

namespace ObjectMachine

/-- On the values with `P` the comparison agrees with itself. -/
structure Consistent {α : Type} (P : α → Prop) (c : α → α → Option Ordering) : Prop where
  swap : ∀ {x y : α}, P x → P y → c y x = (c x y).map Ordering.swap
  comp : ∀ {x y z : α} {o o' : Ordering}, P x → P y → P z → c x y = some o → c y z = some o' →
    o ≠ .gt → o' ≠ .gt → c x z = some (o.then o')

namespace Consistent

variable {α : Type} {P : α → Prop} {c : α → α → Option Ordering}

theorem mono {Q : α → Prop} (hc : Consistent P c) (hQ : ∀ x, Q x → P x) : Consistent Q c where
  swap hx hy := hc.swap (hQ _ hx) (hQ _ hy)
  comp hx hy hz := hc.comp (hQ _ hx) (hQ _ hy) (hQ _ hz)

theorem swapped (hc : Consistent P c) {x y : α} (hx : P x) (hy : P y) {o : Ordering}
    (h : c x y = some o) : c y x = some o.swap := by
  rw [hc.swap hx hy, h]
  rfl

theorem eq_symm (hc : Consistent P c) {x y : α} (hx : P x) (hy : P y) (h : c x y = some .eq) :
    c y x = some .eq :=
  hc.swapped hx hy h

theorem eq_trans (hc : Consistent P c) {x y z : α} (hx : P x) (hy : P y) (hz : P z)
    (hxy : c x y = some .eq) (hyz : c y z = some .eq) : c x z = some .eq :=
  hc.comp hx hy hz hxy hyz nofun nofun

/-! ### Lists -/

/-- It is enough that the items are ordered alike in both directions. -/
theorem orderItems_swap {xs ys : List α}
    (hc : ∀ x ∈ xs, ∀ y ∈ ys, c y x = (c x y).map Ordering.swap) :
    orderItems c ys xs = (orderItems c xs ys).map Ordering.swap := by
  induction xs generalizing ys with
  | nil => cases ys <;> rfl
  | cons x xs ih =>
    cases ys with
    | nil => rfl
    | cons y ys =>
      have hhead := hc x (by simp) y (by simp)
      have htail : orderItems c ys xs = (orderItems c xs ys).map Ordering.swap :=
        ih fun a ha b hb => hc a (by simp [ha]) b (by simp [hb])
      cases hxy : c x y with
      | none => simp [orderItems, hxy, hhead]
      | some o => cases o <;> simp [orderItems, hxy, hhead, htail]

theorem items_swap (hc : Consistent P c) {xs ys : List α} (hxs : ∀ x ∈ xs, P x)
    (hys : ∀ y ∈ ys, P y) : orderItems c ys xs = (orderItems c xs ys).map Ordering.swap :=
  orderItems_swap fun x hx y hy => hc.swap (hxs x hx) (hys y hy)

/-- Either the heads are equal and the tails decide, or the heads decide. -/
theorem orderItems_cons {x y : α} {xs ys : List α} {o : Ordering}
    (h : orderItems c (x :: xs) (y :: ys) = some o) :
    c x y = some .eq ∧ orderItems c xs ys = some o ∨ c x y = some o ∧ o ≠ .eq := by
  simp only [orderItems] at h
  split at h
  · next heq => exact .inl ⟨heq, h⟩
  · next hne =>
    refine .inr ⟨h, ?_⟩
    rintro rfl
    exact hne h

/-- The first items that differ decide: of the two places where the steps leave equality, the
earlier one. -/
theorem items_comp (hc : Consistent P c) {xs ys zs : List α} {o o' : Ordering}
    (hxs : ∀ x ∈ xs, P x) (hys : ∀ y ∈ ys, P y) (hzs : ∀ z ∈ zs, P z)
    (hxy : orderItems c xs ys = some o) (hyz : orderItems c ys zs = some o') (ho : o ≠ .gt)
    (ho' : o' ≠ .gt) : orderItems c xs zs = some (o.then o') := by
  induction xs generalizing ys zs with
  | nil =>
    cases ys with
    | nil =>
      cases hxy
      exact hyz
    | cons y ys =>
      cases hxy
      cases zs with
      | nil =>
        cases hyz
        exact absurd rfl ho'
      | cons z zs => rfl
  | cons x xs ih =>
    cases ys with
    | nil =>
      cases hxy
      exact absurd rfl ho
    | cons y ys =>
      cases zs with
      | nil =>
        cases hyz
        exact absurd rfl ho'
      | cons z zs =>
        have hhead : ∀ {p q : Ordering}, c x y = some p → c y z = some q → p ≠ .gt → q ≠ .gt →
            c x z = some (p.then q) :=
          hc.comp (hxs x (by simp)) (hys y (by simp)) (hzs z (by simp))
        have htail : orderItems c xs ys = some o → orderItems c ys zs = some o' →
            orderItems c xs zs = some (o.then o') :=
          ih (fun a ha => hxs a (by simp [ha])) (fun b hb => hys b (by simp [hb]))
            (fun d hd => hzs d (by simp [hd]))
        rcases orderItems_cons hxy with ⟨hp, hxy⟩ | ⟨hp, hne⟩
        · rcases orderItems_cons hyz with ⟨hq, hyz⟩ | ⟨hq, hne⟩
          · rw [orderItems, hhead hp hq (by decide) (by decide)]
            exact htail hxy hyz
          · have hlt : o' = .lt := by cases o' <;> simp_all
            subst hlt
            rw [orderItems, hhead hp hq (by decide) (by decide)]
            cases o <;> simp_all
        · have hlt : o = .lt := by cases o <;> simp_all
          subst hlt
          rcases orderItems_cons hyz with ⟨hq, hyz⟩ | ⟨hq, hne⟩
          · rw [orderItems, hhead hp hq (by decide) (by decide)]
            rfl
          · rw [orderItems, hhead hp hq (by decide) ho']
            rfl

/-- Lexicographic order is consistent where the order of the items is. -/
theorem items (hc : Consistent P c) : Consistent (fun xs => ∀ x ∈ xs, P x) (orderItems c) where
  swap := hc.items_swap
  comp := hc.items_comp

end Consistent

/-! ### Tables -/

section Tables

variable {α : Type} {P : α → Prop} {c : α → α → Option Ordering}

/-- No two keys of the table are equal. -/
def Apart (c : α → α → Option Ordering) (es : List (α × α)) : Prop :=
  es.Pairwise fun e f => c e.1 f.1 ≠ some .eq

/-- Each entry of `es` is in `fs`. -/
def Matches (c : α → α → Option Ordering) (es fs : List (α × α)) : Prop :=
  ∀ e ∈ es, ∃ f ∈ fs, c e.1 f.1 = some .eq ∧ c e.2 f.2 = some .eq

/-- Keys and values are among the values with `P`, and no two keys are equal. -/
structure Table (P : α → Prop) (c : α → α → Option Ordering) (es : List (α × α)) : Prop where
  key : ∀ e ∈ es, P e.1
  value : ∀ e ∈ es, P e.2
  apart : Apart c es

/-- Equal keys stand in one place. -/
theorem Table.place_eq (hc : Consistent P c) {es : List (α × α)} (hes : Table P c es) {i j : Nat}
    {e f : α × α} (hi : es[i]? = some e) (hj : es[j]? = some f) (heq : c e.1 f.1 = some .eq) :
    i = j := by
  have hlater : ∀ {i j : Nat} {e f : α × α}, es[i]? = some e → es[j]? = some f → i < j →
      c e.1 f.1 ≠ some .eq := by
    intro i j e f hi hj hij
    obtain ⟨hi', rfl⟩ := List.getElem?_eq_some_iff.mp hi
    obtain ⟨hj', rfl⟩ := List.getElem?_eq_some_iff.mp hj
    exact List.pairwise_iff_getElem.mp hes.apart i j hi' hj' hij
  rcases Nat.lt_trichotomy i j with hij | hij | hij
  · exact absurd heq (hlater hi hj hij)
  · exact hij
  · have hsymm := hc.eq_symm (hes.key e (List.mem_of_getElem? hi))
      (hes.key f (List.mem_of_getElem? hj)) heq
    exact absurd hsymm (hlater hj hi hij)

/-- The order of tables in terms of their entries alone. -/
theorem orderEntries_eq_some_iff (hc : Consistent P c) {es fs : List (α × α)}
    (hes : Table P c es) (hfs : Table P c fs) :
    orderEntries c es fs = some .eq ↔ es.length = fs.length ∧ Matches c es fs := by
  simp only [orderEntries, ite_eq_left_iff, reduceCtorEq, imp_false, not_not, partnered_iff]
  refine and_congr_right fun _ => ⟨?_, ?_⟩
  · intro h e he
    obtain ⟨w, hw, hvalue⟩ := h e he
    obtain ⟨i, k, hi, hkey⟩ := partner?_eq_some hw
    have hmem := List.mem_of_getElem? hi
    exact ⟨(k, w), hmem, hc.eq_symm (hfs.key _ hmem) (hes.key e he) hkey, hvalue⟩
  · intro h e he
    obtain ⟨f, hf, hkey, hvalue⟩ := h e he
    obtain ⟨i, hi⟩ := List.getElem?_of_mem hf
    refine ⟨f.2, partner?_of_unique hi (hc.eq_symm (hes.key e he) (hfs.key f hf) hkey) ?_, hvalue⟩
    -- another key equal to that of `e` equals that of `f`
    intro j l v hj hl
    have hmem := List.mem_of_getElem? hj
    exact hfs.place_eq hc hj hi (hc.eq_trans (hfs.key _ hmem) (hes.key e he) (hfs.key f hf) hl hkey)

/-- Entries with different keys have different partners, so between tables of the same size each
entry of `fs` is the partner of one entry of `es`. -/
theorem Matches.equiv (hc : Consistent P c) {es fs : List (α × α)} (hes : Table P c es)
    (hfs : Table P c fs) (hlen : es.length = fs.length) (h : Matches c es fs) :
    ∃ g : Fin es.length ≃ Fin fs.length, ∀ i,
      c (es.get i).1 (fs.get (g i)).1 = some .eq ∧ c (es.get i).2 (fs.get (g i)).2 = some .eq := by
  have hplace : ∀ i : Fin es.length, ∃ j : Fin fs.length,
      c (es.get i).1 (fs.get j).1 = some .eq ∧ c (es.get i).2 (fs.get j).2 = some .eq := by
    intro i
    obtain ⟨f, hf, hequal⟩ := h _ (List.get_mem es i)
    obtain ⟨j, rfl⟩ := List.get_of_mem hf
    exact ⟨j, hequal⟩
  choose g hg using hplace
  have hinjective : Function.Injective g := by
    intro i j hij
    have hback : c (fs.get (g i)).1 (es.get j).1 = some .eq := by
      rw [hij]
      exact hc.eq_symm (hes.key _ (List.get_mem es j)) (hfs.key _ (List.get_mem fs _)) (hg j).1
    have hequal := hc.eq_trans (hes.key _ (List.get_mem es i)) (hfs.key _ (List.get_mem fs _))
      (hes.key _ (List.get_mem es j)) (hg i).1 hback
    apply Fin.ext
    exact hes.place_eq hc (List.getElem?_eq_getElem i.isLt) (List.getElem?_eq_getElem j.isLt) hequal
  have hbijective : Function.Bijective g :=
    (Fintype.bijective_iff_injective_and_card g).mpr ⟨hinjective, by simp [hlen]⟩
  exact ⟨Equiv.ofBijective g hbijective, hg⟩

theorem Matches.symm (hc : Consistent P c) {es fs : List (α × α)} (hes : Table P c es)
    (hfs : Table P c fs) (hlen : es.length = fs.length) (h : Matches c es fs) :
    Matches c fs es := by
  obtain ⟨g, hg⟩ := h.equiv hc hes hfs hlen
  intro f hf
  obtain ⟨j, rfl⟩ := List.get_of_mem hf
  obtain ⟨i, rfl⟩ := g.surjective j
  have hi := List.get_mem es i
  exact ⟨es.get i, hi, hc.eq_symm (hes.key _ hi) (hfs.key _ hf) (hg i).1,
    hc.eq_symm (hes.value _ hi) (hfs.value _ hf) (hg i).2⟩

/-- A one-to-one correspondence of entries finds each its partner. -/
theorem Matches.of_equiv {es fs : List (α × α)} (g : Fin es.length ≃ Fin fs.length)
    (hg : ∀ i, c (es.get i).1 (fs.get (g i)).1 = some .eq ∧
      c (es.get i).2 (fs.get (g i)).2 = some .eq) : Matches c es fs := by
  intro e he
  obtain ⟨i, rfl⟩ := List.get_of_mem he
  exact ⟨fs.get (g i), List.get_mem fs _, hg i⟩

theorem Table.perm (hc : Consistent P c) {es fs : List (α × α)} (hes : Table P c es)
    (hperm : es.Perm fs) : Table P c fs where
  key e he := hes.key e (hperm.mem_iff.mpr he)
  value e he := hes.value e (hperm.mem_iff.mpr he)
  apart := by
    have hsymm : ∀ {e f : α × α}, P e.1 ∧ P f.1 ∧ c e.1 f.1 ≠ some .eq →
        P f.1 ∧ P e.1 ∧ c f.1 e.1 ≠ some .eq :=
      fun ⟨he, hf, hne⟩ => ⟨hf, he, fun heq => hne (hc.eq_symm hf he heq)⟩
    have hpairs : es.Pairwise fun e f => P e.1 ∧ P f.1 ∧ c e.1 f.1 ≠ some .eq :=
      hes.apart.imp_of_mem fun he hf hne => ⟨hes.key _ he, hes.key _ hf, hne⟩
    exact ((hperm.pairwise_iff hsymm).mp hpairs).imp fun h => h.2.2

theorem Matches.trans (hc : Consistent P c) {es fs gs : List (α × α)} (hes : Table P c es)
    (hfs : Table P c fs) (hgs : Table P c gs) (h : Matches c es fs) (h' : Matches c fs gs) :
    Matches c es gs := by
  intro e he
  obtain ⟨f, hf, hkey, hvalue⟩ := h e he
  obtain ⟨g, hg, hkey', hvalue'⟩ := h' f hf
  exact ⟨g, hg, hc.eq_trans (hes.key e he) (hfs.key f hf) (hgs.key g hg) hkey hkey',
    hc.eq_trans (hes.value e he) (hfs.value f hf) (hgs.value g hg) hvalue hvalue'⟩

theorem orderEntries_eq_or_none (es fs : List (α × α)) :
    orderEntries c es fs = some .eq ∨ orderEntries c es fs = none := by
  by_cases h : orderEntries c es fs = some .eq
  · exact .inl h
  · exact .inr (orderEntries_none h)

theorem Matches.perm {es es' fs fs' : List (α × α)} (hes : es.Perm es') (hfs : fs.Perm fs')
    (h : Matches c es fs) : Matches c es' fs' := by
  intro e he
  obtain ⟨f, hf, hequal⟩ := h e (hes.mem_iff.mpr he)
  exact ⟨f, hfs.mem_iff.mp hf, hequal⟩

/-- The places of the entries do not matter. -/
theorem orderEntries_perm (hc : Consistent P c) {es es' fs fs' : List (α × α)}
    (hes : Table P c es) (hfs : Table P c fs) (hperm : es.Perm es') (hperm' : fs.Perm fs') :
    orderEntries c es' fs' = orderEntries c es fs := by
  have hiff : orderEntries c es' fs' = some .eq ↔ orderEntries c es fs = some .eq := by
    rw [orderEntries_eq_some_iff hc (hes.perm hc hperm) (hfs.perm hc hperm'),
      orderEntries_eq_some_iff hc hes hfs, hperm.length_eq, hperm'.length_eq]
    exact and_congr_right fun _ => ⟨.perm hperm.symm hperm'.symm, .perm hperm hperm'⟩
  rcases orderEntries_eq_or_none (c := c) es fs with h | h
  · rw [h, hiff.mpr h]
  · rw [h, orderEntries_none]
    rw [ne_eq, hiff, h]
    exact nofun

/-- The order of tables is consistent where the order of keys and values is. -/
theorem Consistent.entries (hc : Consistent P c) : Consistent (Table P c) (orderEntries c) where
  swap {es fs} hes hfs := by
    have hsymm : ∀ {es fs : List (α × α)}, Table P c es → Table P c fs →
        orderEntries c es fs = some .eq → orderEntries c fs es = some .eq := by
      intro es fs hes hfs h
      obtain ⟨hlen, hmatch⟩ := (orderEntries_eq_some_iff hc hes hfs).mp h
      exact (orderEntries_eq_some_iff hc hfs hes).mpr ⟨hlen.symm, hmatch.symm hc hes hfs hlen⟩
    rcases orderEntries_eq_or_none (c := c) es fs with h | h
    · rw [h, hsymm hes hfs h]
      rfl
    · rcases orderEntries_eq_or_none (c := c) fs es with h' | h'
      · rw [hsymm hfs hes h'] at h
        cases h
      · rw [h, h']
        rfl
  comp {es fs gs o o'} hes hfs hgs h h' _ _ := by
    rcases orderEntries_eq_or_none (c := c) es fs with ho | ho <;> rw [ho] at h <;> cases h
    rcases orderEntries_eq_or_none (c := c) fs gs with ho' | ho' <;> rw [ho'] at h' <;> cases h'
    obtain ⟨hlen, hmatch⟩ := (orderEntries_eq_some_iff hc hes hfs).mp ho
    obtain ⟨hlen', hmatch'⟩ := (orderEntries_eq_some_iff hc hfs hgs).mp ho'
    exact (orderEntries_eq_some_iff hc hes hgs).mpr
      ⟨hlen.trans hlen', hmatch.trans hc hes hfs hgs hmatch'⟩

end Tables
end ObjectMachine
