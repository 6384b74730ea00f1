import ObjectMachine.Proofs.Classes.Sessions
import ObjectMachine.Proofs.Comparing.Tables
import ObjectMachine.Proofs.Copying.Classes

/-!
# ObjectMachine.Proofs.Comparing.Filling

Hashes that are made with entries have unequal keys.

Each key is compared with the keys before it when it is put in, and what the others consist of does
not change by that: a key that was there before the hash does not reach it, and neither does a key
that is rebuilt from a tree while the hash is filled, for it consists of new objects only.

* `Heap.Clear` — a value that reaches nothing of a set of objects but such as hold nothing.
* `Heap.AllClear` — the hashes outside the set have unequal keys, and all they hold is clear.
* `Heap.Grows` — nothing is changed, and what is new is clear of what was there.
* `Vm.Sprouts` — an action that only makes a heap grow.
* `Vm.unpack_brings` — rebuilding from a tree is such an action, and what it brings is clear.
* `Vm.fillHash_filling` — filling a hash with keys that do not reach it.
-/

namespace ObjectMachine

open ObjectMachine.Action

theorem Payload.Common.parts_eq {p : Payload} (hp : p.Common) : p.parts = [] := by
  cases p <;> first | rfl | exact hp.elim

namespace Heap

variable {h h' h'' : Heap} {old old' : Ref → Prop} {v x : Ref} {t u : HashTable}

/-! ## Values clear of a set of objects -/

/-- All that `v` consists of is there, and nothing of it that is among `old` is a container. -/
def Clear (old : Ref → Prop) (h : Heap) (v : Ref) : Prop :=
  ∀ x, h.Spans Payload.parts v x → ∃ p, h.payload x = .ok p ∧ (old x → p.Common)

/-- The keys are unequal, and keys and values are clear. -/
structure TableClear (old : Ref → Prop) (h : Heap) (t : HashTable) : Prop where
  unequal : h.KeysUnequal t
  parts : ∀ y ∈ (Payload.hash t).parts, h.Clear old y

/-- So it is with every hash outside the set. -/
def AllClear (old : Ref → Prop) (h : Heap) : Prop :=
  ∀ r t, ¬ old r → h.payload r = .ok (.hash t) → h.TableClear old t

/-- Nothing has changed but containers of the set. -/
structure ChangesOnly (old : Ref → Prop) (h h' : Heap) : Prop where
  nesting : h'.nesting = h.nesting
  order : h.BuiltinOrder
  order' : h'.BuiltinOrder
  payload : ∀ x p, h.payload x = .ok p → (old x → p.Common) → h'.payload x = .ok p

theorem Clear.mono (hv : h.Clear old v) (hold : ∀ x, old' x → old x) : h.Clear old' v := by
  intro x hs
  obtain ⟨p, hp, hc⟩ := hv x hs
  exact ⟨p, hp, fun hx => hc (hold x hx)⟩

theorem Clear.intro {p : Payload} (hp : h.payload v = .ok p) (hv : old v → p.Common)
    (hparts : ∀ y ∈ p.parts, h.Clear old y) : h.Clear old v := by
  intro x hs
  rcases hs.first with rfl | ⟨q, y, hq, hy, hs⟩
  · exact ⟨p, hp, hv⟩
  · rw [hp] at hq
    cases hq
    exact hparts y hy x hs

theorem TableClear.mono (ht : h.TableClear old t) (hold : ∀ x, old' x → old x) :
    h.TableClear old' t :=
  ⟨ht.unequal, fun y hy => (ht.parts y hy).mono hold⟩

theorem TableClear.empty : h.TableClear old {} :=
  ⟨.empty, by simp [Payload.parts, HashTable.keys, HashTable.values]⟩

namespace ChangesOnly

theorem intact (hk : h.ChangesOnly old h') (hv : h.Clear old v) : h.Intact h' v := by
  intro x hs
  obtain ⟨p, hp, hc⟩ := hv x hs
  exact ⟨p, hp, hk.payload x p hp hc⟩

theorem clear (hk : h.ChangesOnly old h') (hv : h.Clear old v) : h'.Clear old v := by
  intro x hs
  obtain ⟨p, hp, hc⟩ := hv x ((hk.intact hv).spans.mp hs)
  exact ⟨p, hk.payload x p hp hc, hc⟩

theorem tableClear (hk : h.ChangesOnly old h') (ht : h.TableClear old t) : h'.TableClear old t where
  unequal := by
    refine ht.unequal.intact hk.nesting hk.order hk.order' fun k hkey => hk.intact (ht.parts k ?_)
    exact List.mem_append_left _ (Array.mem_toList_iff.mpr hkey)
  parts y hy := hk.clear (ht.parts y hy)

end ChangesOnly

/-! ## Growing heaps -/

/-- Nothing is changed or lost, and new hashes are clear of what was there. -/
structure Grows (h h' : Heap) : Prop where
  turns : h.Turns (fun _ => Eq) h'
  nesting : h'.nesting = h.nesting
  classed : h'.Classed
  clear : h'.AllClear (h.contains · = true)

namespace Grows

theorem payload (hg : h.Grows h') {p : Payload} (hp : h.payload x = .ok p) :
    h'.payload x = .ok p := by
  obtain ⟨_, hp', rfl⟩ := hg.turns.payload hp
  exact hp'

theorem payload_back (hg : h.Grows h') (hx : h.contains x = true) {p : Payload}
    (hp : h'.payload x = .ok p) : h.payload x = .ok p := by
  obtain ⟨o, ho⟩ := contains_iff.mp hx
  have hold : h.payload x = .ok o.payload := payload_eq_ok_iff.mpr ⟨o.cls, ho⟩
  rw [hg.payload hold] at hp
  rw [hold, hp]

theorem changesOnly (hg : h.Grows h') (hc : h.Classed) (old : Ref → Prop) :
    h.ChangesOnly old h' where
  nesting := hg.nesting
  order := hc.builtinOrder
  order' := hg.classed.builtinOrder
  payload _ _ hp _ := hg.payload hp

/-- What was clear of some objects before, and what is new, is clear of these objects. -/
theorem allClear (hg : h.Grows h') (hc : h.Classed) (hold : ∀ x, old x → h.contains x = true)
    (hclear : h.AllClear old) : h'.AllClear old := by
  intro r t hr ht
  cases hthere : h.contains r with
  | true =>
    exact (hg.changesOnly hc old).tableClear (hclear r t hr (hg.payload_back hthere ht))
  | false => exact (hg.clear r t (by simp [hthere]) ht).mono hold

/-- Before anything happens, nothing is new. -/
theorem allClear_self : h.AllClear (h.contains · = true) :=
  fun _ _ hr ht => absurd (contains_of_payload ht) hr

theorem refl (hf : h.FreeList) (hc : h.Classed) : h.Grows h where
  turns := .refl hf fun _ _ => rfl
  nesting := rfl
  classed := hc
  clear := allClear_self

theorem trans (hc : h'.Classed) (h₁ : h.Grows h') (h₂ : h'.Grows h'') : h.Grows h'' where
  turns := h₁.turns.trans_same h₂.turns
  nesting := h₂.nesting.trans h₁.nesting
  classed := h₂.classed
  clear := h₂.allClear hc (fun _ => h₁.turns.contains) h₁.clear

/-- The keys of old hashes are as they were, and those of new ones are unequal. -/
theorem keepsUnequal (hg : h.Grows h') (hc : h.Classed) (hclosed : h.Closed) :
    h.KeepsUnequal h' := by
  refine .of_before hg.nesting hc.builtinOrder hg.classed.builtinOrder fun r u hu hold => ?_
  cases hr : h.contains r with
  | true =>
    have hp := hg.payload_back hr hu
    refine .inr ⟨hold u hp, fun k hk => hclosed.refs_live hp ?_⟩
    exact HashTable.key_mem_refs (Array.mem_toList_iff.mpr hk)
  | false => exact .inl (hg.clear r u (by simp [hr]) hu).unequal

end Grows

/-! ## A hash that is being filled -/

theorem payload_refill_ne (hx : h.contains x = true) {r : Ref} (hne : r ≠ x) :
    (h.refill x u).payload r = h.payload r := by
  cases hr : h.get r with
  | ok o => simp only [Heap.payload, get_refill_ne hx hne hr, hr]
  | error e =>
    have hlost : (h.refill x u).get r = .error e := by
      rw [refill, get_update, hr]
      rfl
    simp only [Heap.payload, hlost, hr]

/-- The heaps differ in the object `x` at most. -/
structure DiffersAt (x : Ref) (h h' : Heap) : Prop where
  nesting : h'.nesting = h.nesting
  payload : ∀ r, r ≠ x → h'.payload r = h.payload r

namespace DiffersAt

theorem refl : h.DiffersAt x h :=
  ⟨rfl, fun _ _ => rfl⟩

theorem trans (h₁ : h.DiffersAt x h') (h₂ : h'.DiffersAt x h'') : h.DiffersAt x h'' :=
  ⟨h₂.nesting.trans h₁.nesting, fun r hr => (h₂.payload r hr).trans (h₁.payload r hr)⟩

theorem refill (hx : h.contains x = true) : h.DiffersAt x (h.refill x u) :=
  ⟨rfl, fun _ => payload_refill_ne hx⟩

end DiffersAt

/-- The hash `x` is being filled: it is one of the old objects, and what it holds is clear of
them. -/
structure Filling (old : Ref → Prop) (x : Ref) (h : Heap) : Prop where
  furnished : h.Furnished
  classed : h.Classed
  live : ∀ r, old r → h.contains r = true
  isOld : old x
  table : ∃ t, h.payload x = .ok (.hash t) ∧ h.TableClear old t

namespace Filling

theorem grows (hx : h.Filling old x) (hg : h.Grows h') : h'.Filling old x where
  furnished := hx.furnished.turns hg.turns
  classed := hg.classed
  live r hr := hg.turns.contains (hx.live r hr)
  isOld := hx.isOld
  table := by
    obtain ⟨t, ht, hclear⟩ := hx.table
    exact ⟨t, hg.payload ht, (hg.changesOnly hx.classed old).tableClear hclear⟩

/-- What is clear of some objects is clear of fewer. -/
theorem mono (hx : h.Filling old x) (hold : ∀ r, old' r → old r) (hx' : old' x) :
    h.Filling old' x where
  furnished := hx.furnished
  classed := hx.classed
  live r hr := hx.live r (hold r hr)
  isOld := hx'
  table := by
    obtain ⟨t, ht, hclear⟩ := hx.table
    exact ⟨t, ht, hclear.mono hold⟩

/-- The hash is not among what is clear, so a change of the hash is none of that. -/
theorem changesOnly (hx : h.Filling old x) (hc' : h'.Classed) (hd : h.DiffersAt x h') :
    h.ChangesOnly old h' where
  nesting := hd.nesting
  order := hx.classed.builtinOrder
  order' := hc'.builtinOrder
  payload y p hp hcommon := by
    obtain ⟨t, ht, -⟩ := hx.table
    have hne : y ≠ x := by
      rintro rfl
      rw [ht] at hp
      cases hp
      exact hcommon hx.isOld
    rw [hd.payload y hne, hp]

/-- The hash gets a table whose keys are unequal and whose contents are clear. -/
theorem refill (hx : h.Filling old x) (hc' : (h.refill x u).Classed) (hu : h.TableClear old u) :
    (h.refill x u).Filling old x := by
  obtain ⟨t, ht, -⟩ := hx.table
  have hd : h.DiffersAt x (h.refill x u) := .refill (contains_of_payload ht)
  exact ⟨hx.furnished.update ht _, hc', fun r hr => contains_update.mpr (hx.live r hr), hx.isOld,
    u, payload_refill_self ht, (hx.changesOnly hc' hd).tableClear hu⟩

/-- Other hashes stay as clear as they are. -/
theorem others_differsAt (hx : h.Filling old x) (hc' : h'.Classed) (hd : h.DiffersAt x h')
    (hclear : h.AllClear old) : h'.AllClear old := by
  intro r t hr ht
  have hne : r ≠ x := fun heq => hr (heq ▸ hx.isOld)
  rw [hd.payload r hne] at ht
  exact (hx.changesOnly hc' hd).tableClear (hclear r t hr ht)

theorem clear_self (hx : h.Filling old x) (hnew : ¬ old' x) (hold : ∀ r, old' r → old r) :
    h.Clear old' x := by
  obtain ⟨t, ht, htable⟩ := hx.table
  exact .intro ht (fun hthere => absurd hthere hnew) fun y hy => (htable.parts y hy).mono hold

end Filling

/-- The hash is being filled, and hashes that were made meanwhile are clear of the old objects. -/
structure FillingAmong (old : Ref → Prop) (x : Ref) (h : Heap) : Prop where
  filling : h.Filling old x
  others : h.AllClear old

namespace FillingAmong

theorem grows (hx : h.FillingAmong old x) (hg : h.Grows h') : h'.FillingAmong old x :=
  ⟨hx.filling.grows hg, hg.allClear hx.filling.classed hx.filling.live hx.others⟩

/-- In the end the hash is as clear as the others of what was there before it. -/
theorem allClear (hx : h.FillingAmong old x) (hold : ∀ r, old' r → old r)
    (hnew : ∀ r, old r → r = x ∨ old' r) : h.AllClear old' := by
  intro r t hr ht
  refine TableClear.mono ?_ hold
  by_cases hrx : r = x
  · subst hrx
    obtain ⟨t', ht', htable⟩ := hx.filling.table
    rw [ht] at ht'
    cases ht'
    exact htable
  · exact hx.others r t (fun hthere => (hnew r hthere).elim hrx hr) ht

end FillingAmong

/-- What a table holds after an entry was put there. -/
theorem TableClear.puts {key value : Ref} {i : Nat} (ht : h.TableClear old t)
    (hkey : h.Clear old key) (hvalue : h.Clear old value) (hputs : HashTable.Puts key value t i u)
    (hkeys : u.keys = t.keys ∨ (∀ k ∈ t.keys, h.equals k key = .ok false) ∧
      u.keys.toList = t.keys.toList ++ [key]) : h.TableClear old u where
  unequal := by
    rcases hkeys with hu | ⟨hnone, hu⟩
    · unfold KeysUnequal
      rw [hu]
      exact ht.unequal
    · exact ht.unequal.append hnone hu
  parts y hy := by
    rcases hputs.parts hy with hy | rfl | rfl
    · exact ht.parts y hy
    · exact hkey
    · exact hvalue

end Heap

namespace Vm

variable {v v' : Vm} {x y : Ref}

theorem hashSet_differsAt (v : Vm) (x key value : Ref) :
    v.heap.DiffersAt x (final (hashSet x key value v)).heap := by
  rcases hashSet_cases v x key value with hsame | ⟨t, u, i, ht, -, hrun, -⟩
  · rw [hsame]
    exact .refl
  · rw [hrun]
    exact .refill (Heap.contains_of_payload ht)

theorem hashSet_filling {old : Ref → Prop} {key value : Ref} (hx : v.heap.Filling old x)
    (hkey : v.heap.Clear old key) (hvalue : v.heap.Clear old value) :
    (final (hashSet x key value v)).heap.Filling old x := by
  have hc' : (final (hashSet x key value v)).heap.Classed := Fitting.classed v hx.classed
  rcases hashSet_cases v x key value with hsame | ⟨t, u, i, ht, hputs, hrun, hkeys⟩
  · rw [hsame]
    exact hx
  · rw [hrun] at hc' ⊢
    obtain ⟨t', ht', hclear⟩ := hx.table
    rw [ht] at ht'
    cases ht'
    exact hx.refill hc' (hclear.puts hkey hvalue hputs hkeys)

/-- Filling a hash with keys that do not reach it. -/
theorem fillHash_filling {items : List Ref} : ∀ {v : Vm}, v.heap.Filling (· = x) x →
    (∀ y ∈ items, v.heap.Clear (· = x) y) →
    (final (fillHash x items v)).heap.Filling (· = x) x ∧
      v.heap.DiffersAt x (final (fillHash x items v)).heap := by
  induction items using fillHash.induct with
  | case1 k z rest ih =>
    intro v hx hitems
    have hset := hashSet_filling hx (hitems k (.head _)) (hitems z (.tail _ (.head _)))
    have hd := hashSet_differsAt v x k z
    unfold fillHash
    refine final_bind (P := fun w => w.heap.Filling (· = x) x ∧ v.heap.DiffersAt x w.heap)
      ⟨hset, hd⟩ fun _ w hrun => ?_
    rw [hrun] at hset hd
    have hkeep := hx.changesOnly hset.classed hd
    obtain ⟨hrest, hd'⟩ := ih hset fun y hy => hkeep.clear (hitems y (.tail _ (.tail _ hy)))
    exact ⟨hrest, hd.trans hd'⟩
  | case2 items h =>
    intro v hx _
    unfold fillHash
    split
    · exact absurd rfl (h _ _ _)
    · exact ⟨hx, .refl⟩

/-! ## Actions that only make a heap grow -/

class Sprouts {α : Type} (a : Action α) : Prop where
  grows : ∀ v : Vm, v.heap.Furnished → v.heap.Classed → v.heap.Grows (final (a v)).heap

namespace Sprouts

variable {α β : Type}

theorem of_ok {a : Action α} [h : Sprouts a] {r : α} (hf : v.heap.Furnished) (hc : v.heap.Classed)
    (hrun : a v = .ok r v') : v.heap.Grows v'.heap ∧ v'.heap.Furnished := by
  have hg := h.grows v hf hc
  rw [hrun] at hg
  exact ⟨hg, hf.turns hg.turns⟩

instance bind (a : Action α) (f : α → Action β) [ha : Sprouts a] [hfs : ∀ r, Sprouts (f r)] :
    Sprouts (a >>= f) where
  grows v hf hc := by
    have hg := ha.grows v hf hc
    cases hrun : a v with
    | ok r u =>
      rw [hrun] at hg
      rw [bind_ok hrun]
      exact hg.trans hg.classed ((hfs r).grows u (hf.turns hg.turns) hg.classed)
    | error e u =>
      rw [hrun] at hg
      rw [bind_error hrun]
      exact hg

/-- What leaves the tables as they are and changes nothing. -/
instance of_adds (a : Action α) [ha : Adds a] [Fitting a] [ho : Obeys LeavingTables a] :
    Sprouts a where
  grows v hf hc := by
    have hl := ho.holds v hf.freeList
    refine ⟨(ha.works v hf.freeList).heap, hl.nesting, Fitting.classed v hc, fun r t hr ht => ?_⟩
    obtain rfl := hl.new r t (by simpa using hr) ht
    exact .empty

/-- A new object that is no hash with entries. -/
instance new (k : Builtin) (p : Payload) [k.Makes p] [p.Unfilled] : Sprouts (Vm.new k p) where
  grows v hf hc := by
    have hl := (Obeys.new (P := LeavingTables) k p).holds v hf.freeList
    have hc' : (final (Vm.new k p v)).heap.Classed := Fitting.classed v hc
    obtain ⟨-, ht⟩ := new_run hf.freeList (new_eq v k p)
    rw [new_eq] at hl hc' ⊢
    refine ⟨ht, hl.nesting, hc', fun r t hr ht => ?_⟩
    obtain rfl := hl.new r t (by simpa using hr) ht
    exact .empty

end Sprouts

/-- Such an action, whose result is clear of what was there before it. -/
class Brings (a : Action Ref) : Prop extends Sprouts a where
  clear : ∀ v x v', v.heap.Furnished → v.heap.Classed → a v = .ok x v' →
    v'.heap.Clear (v.heap.contains · = true) x

/-- A new object that holds what is clear of some old objects is clear of them. -/
theorem new_clear {old : Ref → Prop} {k : Builtin} {p : Payload} [k.Makes p] [p.Unfilled]
    (hf : v.heap.Furnished) (hc : v.heap.Classed) (hold : ∀ r, old r → v.heap.contains r = true)
    (hparts : ∀ y ∈ p.parts, v.heap.Clear old y) (hrun : Vm.new k p v = .ok x v') :
    v'.heap.Clear old x := by
  obtain ⟨hg, -⟩ := Sprouts.of_ok hf hc hrun
  have hkeep := hg.changesOnly hc old
  have hfresh := (new_run hf.freeList hrun).1
  have hnew := Heap.place_fresh hf.freeList ⟨k.ref v.heap.id, p⟩
  rw [new_eq] at hrun
  cases hrun
  refine .intro (Heap.payload_eq_ok_iff.mpr ⟨_, hfresh.1⟩) (fun hx => ?_)
    fun y hy => hkeep.clear (hparts y hy)
  rw [hold _ hx] at hnew
  cases hnew

/-- A new hash, which is about to be filled. -/
theorem newHash_filling (hf : v.heap.Furnished) (hc : v.heap.Classed) :
    ∃ x w, newHash v = .ok x w ∧ v.heap.contains x = false ∧
      v.heap.Turns (fun _ => Eq) w.heap ∧
      (∀ r, w.heap.contains r = true → r = x ∨ v.heap.contains r = true) ∧
      w.heap.Filling (w.heap.contains · = true) x := by
  have hrun := new_eq v .hash (.hash {})
  obtain ⟨hfresh, ht⟩ := new_run hf.freeList hrun
  have hc' : (final (newHash v)).heap.Classed := Fitting.classed v hc
  rw [show newHash v = _ from hrun] at hc'
  refine ⟨_, _, hrun, Heap.place_fresh hf.freeList _, ht, fun r hr => ?_, ?_⟩
  · obtain ⟨o, ho⟩ := Heap.contains_iff.mp hr
    exact (Heap.get_place_cases hf.freeList _ ho).imp And.left Heap.contains_of_get
  · exact ⟨hf.turns ht, hc', fun _ => id, Heap.contains_of_get hfresh.1,
      {}, Heap.payload_eq_ok_iff.mpr ⟨_, hfresh.1⟩, .empty⟩

namespace Brings

theorem new (k : Builtin) (p : Payload) [k.Makes p] [p.Unfilled] (hp : p.parts = []) :
    Brings (Vm.new k p) where
  clear v x v' hf hc hrun :=
    new_clear hf hc (fun _ => id) (by simp [hp]) hrun

/-- A singleton. -/
theorem single {a : Action Ref} [Sprouts a] (h : ∀ v : Vm, v.heap.Furnished →
    ∃ x p, a v = .ok x v ∧ v.heap.payload x = .ok p ∧ p.Common) : Brings a where
  clear v x v' hf hc hrun := by
    obtain ⟨y, p, hy, hp, hcommon⟩ := h v hf
    rw [hy] at hrun
    cases hrun
    refine .intro hp (fun _ => hcommon) ?_
    simp [hcommon.parts_eq]

end Brings

namespace Brings

/-- An action that such actions come before. -/
theorem after {α : Type} {a : Action α} [ha : Sprouts a] {f : α → Action Ref}
    (hfs : ∀ r, Brings (f r)) : Brings (a >>= f) where
  grows := by
    have hsprouts := fun r => (hfs r).toSprouts
    exact (Sprouts.bind a f).grows
  clear v x v' hf hc hrun := by
    obtain ⟨r, u, hr, hrun⟩ := bind_eq_ok.mp hrun
    obtain ⟨hg, hf'⟩ := Sprouts.of_ok hf hc hr
    exact ((hfs r).clear u x v' hf' hg.classed hrun).mono fun _ => hg.turns.contains

/-- A new hash that is filled, to the end or until that fails. -/
theorem filled {fill : Ref → Action Unit} [hadds : Adds (do let x ← newHash; fill x; return x)]
    [Fitting (do let x ← newHash; fill x; return x)]
    [hsteady : Steady (do let x ← newHash; fill x; return x)]
    (hfill : ∀ {old : Ref → Prop} {x : Ref} {v : Vm}, v.heap.FillingAmong old x →
      (final (fill x v)).heap.FillingAmong old x) :
    Brings (do let x ← newHash; fill x; return x) := by
  have hends : ∀ {v x w}, newHash v = .ok x w →
      final ((do let x ← newHash; fill x; return x : Action Ref) v) = final (fill x w) ∧
      ∀ {y v'}, (do let x ← newHash; fill x; return x : Action Ref) v = .ok y v' → y = x := by
    intro v x w hrun
    rw [bind_ok hrun, bind_run]
    cases fill x w with
    | ok _ u => exact ⟨rfl, fun h => by cases h; rfl⟩
    | error e u => exact ⟨rfl, fun h => by cases h⟩
  refine { grows := fun v hf hc => ?_, clear := fun v y v' hf hc hrun => ?_ }
  · obtain ⟨x, w, hrun, -, ht, hthere, hx⟩ := newHash_filling hf hc
    refine ⟨(hadds.works v hf.freeList).heap, congrArg Context.nesting (hsteady.context v),
      Fitting.classed v hc, ?_⟩
    rw [(hends hrun).1]
    exact (hfill ⟨hx, Heap.Grows.allClear_self⟩).allClear (fun _ => ht.contains) hthere
  · obtain ⟨x, w, hmade, hnew, ht, -, hx⟩ := newHash_filling hf hc
    obtain ⟨hend, hresult⟩ := hends hmade
    obtain rfl := hresult hrun
    rw [hrun] at hend
    rw [show v' = _ from hend]
    have hfilled := hfill ⟨hx, Heap.Grows.allClear_self⟩
    exact hfilled.filling.clear_self (by simp [hnew]) fun _ => ht.contains

end Brings

/-! ## What is rebuilt -/

mutual

theorem unpack_brings : ∀ p, Brings (unpack p)
  | .nil => by
    unfold unpack
    exact .single fun v hf => ⟨_, _, rfl, Heap.payload_eq_ok_iff.mpr ⟨_, hf.nil⟩, trivial⟩
  | .bool b => by
    unfold unpack
    exact .single fun v hf => ⟨_, _, rfl, Heap.payload_eq_ok_iff.mpr ⟨_, hf.bool b⟩, trivial⟩
  | .int i => by
    unfold unpack
    exact .new .int (.int i) rfl
  | .float z => by
    unfold unpack
    exact .new .float (.float z) rfl
  | .str b => by
    unfold unpack
    exact .new .str (.str b) rfl
  | .array items => by
    obtain ⟨hitems, hclear⟩ := unpackItems_brings items
    unfold unpack
    refine { clear := fun v x v' hf hc hrun => ?_ }
    obtain ⟨xs, u, hxs, hnew⟩ := bind_eq_ok.mp hrun
    obtain ⟨hg, hf'⟩ := Sprouts.of_ok hf hc hxs
    refine new_clear hf' hg.classed (fun _ => hg.turns.contains) (fun y hy => ?_) hnew
    exact hclear v xs u hf hc hxs y (by simpa [Payload.parts] using hy)
  | .hash entries => by
    have hadds : Adds (unpack (.hash entries)) := inferInstance
    have hfit : Fitting (unpack (.hash entries)) := inferInstance
    have hsteady : Steady (unpack (.hash entries)) := inferInstance
    unfold unpack at hadds hfit hsteady ⊢
    exact .filled (unpackEntries_filling entries)
  | .error message cause lines => by
    have := unpackOption_sprouts cause
    unfold unpack
    exact .after fun _ => .new .error (.error _) rfl
  | .method name body receiver => by
    have := unpackOption_sprouts receiver
    have := unpackBody_sprouts body
    unfold unpack
    exact .after fun _ => .after fun _ => .new .method (.method _) rfl
  | .task t => by
    unfold unpack
    exact ⟨fun v x v' hf hc hrun => new_clear hf hc (fun _ => id) (by simp [Payload.parts]) hrun⟩

theorem unpackBody_sprouts : ∀ body, Sprouts (unpackBody body)
  | .native f => by unfold unpackBody; infer_instance
  | .bytecode _ name => by
    have := importOption_adds name
    unfold unpackBody
    infer_instance
  | .closure _ name bindings => by
    have := importOption_adds name
    have := unpackBindings_sprouts bindings
    unfold unpackBody
    infer_instance

/-- The items are rebuilt one after the other. -/
theorem unpackItems_brings : ∀ items, Sprouts (unpackItems items) ∧
    ∀ v xs v', v.heap.Furnished → v.heap.Classed → unpackItems items v = .ok xs v' →
      ∀ x ∈ xs, v'.heap.Clear (v.heap.contains · = true) x
  | [] => by
    unfold unpackItems
    refine ⟨inferInstance, fun v xs v' _ _ hrun => ?_⟩
    obtain ⟨rfl, rfl⟩ := pure_eq_ok.mp hrun
    simp
  | p :: rest => by
    have hp := unpack_brings p
    obtain ⟨hrest, hclear⟩ := unpackItems_brings rest
    unfold unpackItems
    refine ⟨inferInstance, fun v xs v' hf hc hrun => ?_⟩
    obtain ⟨y, v₁, hy, hrun⟩ := bind_eq_ok.mp hrun
    obtain ⟨ys, v₂, hys, hrun⟩ := bind_eq_ok.mp hrun
    obtain ⟨rfl, rfl⟩ := pure_eq_ok.mp hrun
    obtain ⟨hg₁, hf₁⟩ := Sprouts.of_ok hf hc hy
    obtain ⟨hg₂, -⟩ := Sprouts.of_ok hf₁ hg₁.classed hys
    refine List.forall_mem_cons.mpr ⟨?_, fun z hz => ?_⟩
    · exact (hg₂.changesOnly hg₁.classed _).clear (hp.clear v y v₁ hf hc hy)
    · exact (hclear v₁ ys v₂ hf₁ hg₁.classed hys z hz).mono fun _ => hg₁.turns.contains

theorem unpackEntries_filling : ∀ entries {old : Ref → Prop} {x : Ref} {v : Vm},
    v.heap.FillingAmong old x → (final (unpackEntries x entries v)).heap.FillingAmong old x
  | [], old, x, v, hx => by
    unfold unpackEntries
    exact hx
  | (k, z) :: rest, old, x, v, hx => by
    have hk := unpack_brings k
    have hz := unpack_brings z
    unfold unpackEntries
    -- before the entry is put there, the heap only grows
    have hgrows : ∀ {a : Action Ref} [Sprouts a] {w : Vm}, w.heap.FillingAmong old x →
        (final (a w)).heap.FillingAmong old x := fun {a} _ {w} hw =>
      hw.grows (Sprouts.grows w hw.filling.furnished hw.filling.classed)
    refine final_bind (P := fun w => w.heap.FillingAmong old x) (hgrows hx) fun key v₁ hkey => ?_
    have hx₁ : v₁.heap.FillingAmong old x := by
      have hend := hgrows (a := unpack k) hx
      rwa [hkey] at hend
    refine final_bind (P := fun w => w.heap.FillingAmong old x) (hgrows hx₁)
      fun value v₂ hvalue => ?_
    have hx₂ : v₂.heap.FillingAmong old x := by
      have hend := hgrows (a := unpack z) hx₁
      rwa [hvalue] at hend
    -- neither what was there before nor the hash is part of the key or of the value
    have hf := hx.filling
    have hf₁ := hx₁.filling
    obtain ⟨hg₂, -⟩ := Sprouts.of_ok hf₁.furnished hf₁.classed hvalue
    have hkey' := (hk.clear v key v₁ hf.furnished hf.classed hkey).mono hf.live
    have hvalue' := (hz.clear v₁ value v₂ hf₁.furnished hf₁.classed hvalue).mono hf₁.live
    have hset := hashSet_filling hx₂.filling ((hg₂.changesOnly hf₁.classed old).clear hkey') hvalue'
    have hothers := hx₂.filling.others_differsAt hset.classed (hashSet_differsAt v₂ x key value)
      hx₂.others
    refine final_bind (P := fun w => w.heap.FillingAmong old x) ⟨hset, hothers⟩
      fun _ v₃ hrun => unpackEntries_filling rest ?_
    rw [hrun] at hset hothers
    exact ⟨hset, hothers⟩

theorem unpackOption_sprouts : ∀ value, Sprouts (unpackOption value)
  | none => by unfold unpackOption; infer_instance
  | some p => by
    have := unpack_brings p
    unfold unpackOption
    infer_instance

theorem unpackBindings_sprouts : ∀ bindings vars, Sprouts (unpackBindings bindings vars)
  | [], _ => by unfold unpackBindings; infer_instance
  | (_, value) :: rest, vars => by
    have := unpackOption_sprouts value
    have := unpackBindings_sprouts rest
    unfold unpackBindings
    infer_instance

end

end Vm
end ObjectMachine
