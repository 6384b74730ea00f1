import ObjectMachine.Proofs.Copying.Orders
import ObjectMachine.Proofs.Heap.Cells
import ObjectMachine.Proofs.Vm.Quiet

/-!
# ObjectMachine.Proofs.Scopes.Evolution

What actions can do to objects that are there already.

Methods, code, frames and most values never change. A module gains names but keeps the variables of
those it has. A variable changes only when a name is assigned, and few actions assign one.

* `Payload.Becomes` — what may become of a payload.
* `Heap.Turns` — what may become of a heap while nothing is collected, given what may become of
  payloads.
* `Heap.Evolves` — the same for `Payload.Becomes`, given the variables that may be assigned.
* `Vm.Advances` — the same of a task, which may also leave frames.
* `Tame` — the actions that assign no variable and enter no frame. The instances follow the
  definitions.
-/

namespace ObjectMachine

open ObjectMachine.Action

/-! ## Payloads -/

/-- What may become of a payload. Whether a variable may get another value depends. -/
inductive Payload.Becomes (assigned : Prop) : Payload → Payload → Prop where
  | same (p : Payload) : Becomes assigned p p
  | object (xs ys : Array Ref) : Becomes assigned (.object xs) (.object ys)
  | cls {c d : Class} : d.name = c.name → d.super = c.super → d.size = c.size →
      d.slots = c.slots → Becomes assigned (.cls c) (.cls d)
  | array (xs ys : Array Ref) : Becomes assigned (.array xs) (.array ys)
  | hash (t u : HashTable) : Becomes assigned (.hash t) (.hash u)
  | module {m n : Module} : n.name = m.name →
      (∀ name v, m.locals.find? name = some v → n.locals.find? name = some v) →
      Becomes assigned (.module m) (.module n)
  | var (x : Option Ref) (y : Ref) : assigned → Becomes assigned (.var x) (.var (some y))

namespace Payload.Becomes

variable {A B : Prop} {p q r : Payload}

theorem imp (h : p.Becomes A q) (hAB : A → B) : p.Becomes B q := by
  cases h with
  | same => exact .same p
  | object => exact .object ..
  | cls hname hsuper hsize hslots => exact .cls hname hsuper hsize hslots
  | array => exact .array ..
  | hash => exact .hash ..
  | module hname hlocals => exact .module hname hlocals
  | var x y hA => exact .var x y (hAB hA)

theorem trans (h : p.Becomes A q) (h' : q.Becomes A r) : p.Becomes A r := by
  cases h with
  | same => exact h'
  | object =>
    cases h' with
    | same => exact .object ..
    | object => exact .object ..
  | cls hname hsuper hsize hslots =>
    cases h' with
    | same => exact .cls hname hsuper hsize hslots
    | cls hname' hsuper' hsize' hslots' =>
      exact .cls (hname'.trans hname) (hsuper'.trans hsuper) (hsize'.trans hsize)
        (hslots'.trans hslots)
  | array =>
    cases h' with
    | same => exact .array ..
    | array => exact .array ..
  | hash =>
    cases h' with
    | same => exact .hash ..
    | hash => exact .hash ..
  | module hname hlocals =>
    cases h' with
    | same => exact .module hname hlocals
    | module hname' hlocals' =>
      exact .module (hname'.trans hname) fun name v hv => hlocals' name v (hlocals name v hv)
  | var x y hA =>
    cases h' with
    | same => exact .var x y hA
    | var _ z _ => exact .var x z hA

theorem setSlots (xs : Array Ref) (p : Payload) : p.Becomes A (p.setSlots xs) := by
  cases p with
  | object ys => exact .object ..
  | _ => exact .same _

theorem setItems (xs : Array Ref) (p : Payload) : p.Becomes A (p.setItems xs) := by
  cases p with
  | array ys => exact .array ..
  | _ => exact .same _

theorem setTable (t : HashTable) (p : Payload) : p.Becomes A (p.setTable t) := by
  cases p with
  | hash u => exact .hash ..
  | _ => exact .same _

theorem addMethod (name : String) (m : Ref) (p : Payload) : p.Becomes A (p.addMethod name m) := by
  cases p with
  | cls c => exact .cls rfl rfl rfl rfl
  | _ => exact .same _

theorem setValue (hA : A) (value : Ref) (p : Payload) : p.Becomes A (p.setValue value) := by
  cases p with
  | var x => exact .var x value hA
  | _ => exact .same _

/-- A module keeps the variables that it has if the name is new to it. -/
theorem addLocal {name : String} (hnew : ∀ m, p = .module m → m.locals.find? name = none)
    (v : Ref) : p.Becomes A (p.addLocal name v) := by
  cases p with
  | module m =>
    refine .module rfl fun other w hw => ?_
    have hne : other ≠ name := by
      rintro rfl
      rw [hnew m rfl] at hw
      cases hw
    exact (NameMap.find?_insert_ne hne).trans hw
  | _ => exact .same _

end Payload.Becomes

/-- What a payload cannot become anything but: methods, code and frames, and variables that are not
assigned. -/
def Payload.Lasting (assigned : Prop) : Payload → Prop
  | .method _ | .code _ | .frame _ => True
  | .var _ => ¬ assigned
  | _ => False

theorem Payload.Becomes.eq_of_lasting {A : Prop} {p q : Payload} (h : p.Becomes A q)
    (hp : p.Lasting A) : q = p := by
  cases h with
  | same => rfl
  | var x y hA => exact absurd hA hp
  | _ => cases hp

/-! ## Heaps -/

/-- What may become of a heap while nothing is collected, if `R` says what may become of the payload
of an object that is there. -/
structure Heap.Turns (R : Ref → Payload → Payload → Prop) (h h' : Heap) : Prop where
  id : h'.id = h.id
  freeList : h'.FreeList
  /-- No cell was freed. -/
  generations : ∀ (i : Nat) (cell : Cell), h.cells[i]? = some cell →
    ∃ cell' : Cell, h'.cells[i]? = some cell' ∧ cell'.generation = cell.generation
  kept : ∀ r o, h.get r = .ok o → ∃ p, h'.get r = .ok ⟨o.cls, p⟩ ∧ R r o.payload p

namespace Heap.Turns

variable {R S T : Ref → Payload → Payload → Prop} {h h' h'' : Heap}

theorem refl (hf : h.FreeList) (hR : ∀ r p, R r p p) : h.Turns R h :=
  ⟨rfl, hf, fun _ cell hc => ⟨cell, hc, rfl⟩, fun r o ho => ⟨o.payload, ho, hR r _⟩⟩

/-- What becomes later of an object counts only if it was there. -/
theorem trans_of (h₁ : h.Turns R h') (h₂ : h'.Turns S h'')
    (hT : ∀ r p q s, h.contains r = true → R r p q → S r q s → T r p s) : h.Turns T h'' where
  id := h₂.id.trans h₁.id
  freeList := h₂.freeList
  generations i cell hc := by
    obtain ⟨cell', hc', hgen'⟩ := h₁.generations i cell hc
    obtain ⟨cell'', hc'', hgen''⟩ := h₂.generations i cell' hc'
    exact ⟨cell'', hc'', hgen''.trans hgen'⟩
  kept r o ho := by
    obtain ⟨p, hp, hop⟩ := h₁.kept r o ho
    obtain ⟨q, hq, hpq⟩ := h₂.kept r _ hp
    exact ⟨q, hq, hT r _ _ _ (contains_of_get ho) hop hpq⟩

theorem mono (h₁ : h.Turns R h') (hRS : ∀ r p q, R r p q → S r p q) : h.Turns S h' :=
  { h₁ with
    kept := fun r o ho => by
      obtain ⟨p, hp, hop⟩ := h₁.kept r o ho
      exact ⟨p, hp, hRS r _ _ hop⟩ }

theorem contains (he : h.Turns R h') {r : Ref} (hr : h.contains r = true) :
    h'.contains r = true := by
  obtain ⟨o, ho⟩ := contains_iff.mp hr
  obtain ⟨p, hp, -⟩ := he.kept r o ho
  exact contains_of_get hp

/-- What is new later was not there before. -/
theorem fresh (he : h.Turns R h') {r : Ref} (hr : h'.contains r = false) :
    h.contains r = false :=
  Bool.eq_false_iff.mpr fun hc => Bool.eq_false_iff.mp hr (he.contains hc)

theorem payload (he : h.Turns R h') {r : Ref} {p : Payload} (hp : h.payload r = .ok p) :
    ∃ q, h'.payload r = .ok q ∧ R r p q := by
  obtain ⟨k, hget⟩ := payload_eq_ok_iff.mp hp
  obtain ⟨q, hq, hpq⟩ := he.kept r _ hget
  exact ⟨q, payload_eq_ok_iff.mpr ⟨k, hq⟩, hpq⟩

/-- A new object, after what has become of the others. -/
theorem place (he : h.Turns R h') (o : Obj) : h.Turns R (h'.place o).2 where
  id := (place_id h' o).trans he.id
  freeList := place_freeList he.freeList o
  generations i cell hc := by
    obtain ⟨cell', hc', hgen⟩ := he.generations i cell hc
    unfold Heap.place
    split
    · rename_i c rest hfree
      by_cases hic : c = i
      · subst hic
        exact ⟨{ cell' with obj := some o }, by simp [Array.getElem?_modify, hc'], hgen⟩
      · exact ⟨cell', by simpa [Array.getElem?_modify, hic] using hc', hgen⟩
    · have hlt : i ≠ h'.cells.size := Nat.ne_of_lt (Array.getElem?_eq_some_iff.mp hc').1
      exact ⟨cell', by simpa [Array.getElem?_push, hlt] using hc', hgen⟩
  kept r x hx := by
    obtain ⟨p, hp, hxp⟩ := he.kept r x hx
    refine ⟨p, ?_, hxp⟩
    have hne : r ≠ (h'.place o).1 := by
      rintro rfl
      have hfresh := place_fresh he.freeList o
      rw [contains_of_get hp] at hfresh
      cases hfresh
    rw [get_place he.freeList, if_neg hne]
    exact hp

theorem update (hf : h.FreeList) (hR : ∀ r p, R r p p) (r : Ref) (f : Payload → Payload)
    (hkept : ∀ x o, h.get x = .ok o → r.cell = x.cell → R x o.payload (f o.payload)) :
    h.Turns R (h.update r f) where
  id := rfl
  freeList := update_freeList hf r f
  generations i cell hc := by
    by_cases hi : r.cell = i
    · exact ⟨{ cell with obj := cell.obj.map fun o => { o with payload := f o.payload } },
        by simp [Heap.update, Array.getElem?_modify, hi, hc], rfl⟩
    · exact ⟨cell, by simpa [Heap.update, Array.getElem?_modify, hi] using hc, rfl⟩
  kept x o ho := by
    rw [get_update, ho]
    by_cases hcell : r.cell = x.cell
    · exact ⟨f o.payload, by simp [Except.map, hcell], hkept x o ho hcell⟩
    · exact ⟨o.payload, by simp [Except.map, hcell], hR x _⟩

/-- A change of an object that was not there before. -/
theorem update_new (he : h.Turns R h') {r : Ref} (hnew : h.contains r = false)
    (hr : h'.contains r = true) (f : Payload → Payload) : h.Turns R (h'.update r f) where
  id := he.id
  freeList := update_freeList he.freeList r f
  generations i cell hc := by
    obtain ⟨cell', hc', hgen⟩ := he.generations i cell hc
    by_cases hi : r.cell = i
    · exact ⟨{ cell' with obj := cell'.obj.map fun o => { o with payload := f o.payload } },
        by simp [Heap.update, Array.getElem?_modify, hi, hc'], hgen⟩
    · exact ⟨cell', by simpa [Heap.update, Array.getElem?_modify, hi] using hc', hgen⟩
  kept x o ho := by
    obtain ⟨p, hp, hop⟩ := he.kept x o ho
    refine ⟨p, ?_, hop⟩
    have hcell : r.cell ≠ x.cell := by
      intro hcell
      obtain rfl := eq_of_cell_eq hr (contains_of_get hp) hcell
      rw [contains_of_get ho] at hnew
      cases hnew
    rw [get_update, hp]
    simp [Except.map, hcell]

end Heap.Turns

/-- What may become of a heap while nothing is collected. The variables for which `A` holds may be
assigned. -/
abbrev Heap.Evolves (A : Ref → Prop) : Heap → Heap → Prop :=
  Heap.Turns fun r p q => p.Becomes (A r) q

namespace Heap.Evolves

variable {A B : Ref → Prop} {h h' h'' : Heap}

theorem refl (hf : h.FreeList) : h.Evolves A h :=
  Turns.refl hf fun _ p => .same p

/-- What is assigned later counts only if it was there. -/
theorem trans_of (h₁ : h.Evolves A h') (h₂ : h'.Evolves B h'')
    (hB : ∀ r, h.contains r = true → B r → A r) : h.Evolves A h'' :=
  Turns.trans_of h₁ h₂ fun r _ _ _ hr hpq hqs => hpq.trans (hqs.imp (hB r hr))

theorem trans (h₁ : h.Evolves A h') (h₂ : h'.Evolves A h'') : h.Evolves A h'' :=
  trans_of h₁ h₂ fun _ _ hA => hA

theorem mono (h₁ : h.Evolves A h') (hAB : ∀ r, A r → B r) : h.Evolves B h' :=
  Turns.mono h₁ fun r _ _ hpq => hpq.imp (hAB r)

/-- Objects that stay as they are. -/
theorem of_eq (ht : h.Turns (fun _ => Eq) h') : h.Evolves A h' :=
  Turns.mono ht fun _ p _ heq => heq ▸ .same p

theorem update (hf : h.FreeList) (r : Ref) (f : Payload → Payload)
    (hkept : ∀ x o, h.get x = .ok o → r.cell = x.cell → o.payload.Becomes (A x) (f o.payload)) :
    h.Evolves A (h.update r f) :=
  Turns.update hf (fun _ p => .same p) r f hkept

theorem payload_lasting (he : h.Evolves A h') {r : Ref} {p : Payload} (hp : h.payload r = .ok p)
    (hlasting : p.Lasting (A r)) : h'.payload r = .ok p := by
  obtain ⟨q, hq, hpq⟩ := he.payload hp
  rwa [hpq.eq_of_lasting hlasting] at hq

end Heap.Evolves

/-! ## Tasks -/

/-- A frame but for where it stands. -/
def ActiveFrame.still (f : ActiveFrame) : ActiveFrame :=
  { f with ip := 0, base := 0 }

/-- What may become of a task while nothing is collected and no frame is entered. -/
structure Vm.Advances (A : Ref → Prop) (v v' : Vm) : Prop where
  heap : v.heap.Evolves A v'.heap
  frames : ∀ f' ∈ v'.frames, ∃ f ∈ v.frames, f'.still = f.still

namespace Vm.Advances

variable {A B : Ref → Prop} {v v' v'' : Vm}

theorem refl (hf : v.heap.FreeList) : v.Advances A v :=
  ⟨.refl hf, fun f' hf' => ⟨f', hf', rfl⟩⟩

theorem trans_of (h : v.Advances A v') (h' : v'.Advances B v'')
    (hB : ∀ r, v.heap.contains r = true → B r → A r) : v.Advances A v'' where
  heap := h.heap.trans_of h'.heap hB
  frames f' hf' := by
    obtain ⟨g, hg, hfg⟩ := h'.frames f' hf'
    obtain ⟨f, hf, hgf⟩ := h.frames g hg
    exact ⟨f, hf, hfg.trans hgf⟩

theorem trans (h : v.Advances A v') (h' : v'.Advances A v'') : v.Advances A v'' :=
  h.trans_of h' fun _ _ hA => hA

theorem mono (h : v.Advances A v') (hAB : ∀ r, A r → B r) : v.Advances B v' :=
  ⟨h.heap.mono hAB, h.frames⟩

theorem of_ok {α : Type} {a : Action α} {vm : Vm} {x : α} (h : v.Advances A (final (a vm)))
    (hrun : a vm = .ok x v') : v.Advances A v' := by
  rwa [hrun] at h

/-- One action after the other. -/
theorem bind {α β : Type} {a : Action α} {f : α → Action β} {vm : Vm}
    (ha : v.Advances A (final (a vm)))
    (hf : ∀ x vm', a vm = .ok x vm' → v.Advances A (final (f x vm'))) :
    v.Advances A (final ((a >>= f) vm)) := by
  cases h : a vm with
  | ok x vm' =>
    rw [bind_ok h]
    exact hf x vm' h
  | error e vm' =>
    rw [h] at ha
    rw [bind_error h]
    exact ha

end Vm.Advances

/-- No variable is assigned. -/
abbrev noVar : Ref → Prop := fun _ => False

/-- An action that neither assigns a variable, nor enters a frame, nor collects. -/
class Tame {α : Type} (a : Action α) : Prop where
  advances : ∀ vm : Vm, vm.heap.FreeList → vm.Advances noVar (final (a vm))

namespace Tame

variable {α β : Type}

theorem of_ok {a : Action α} [h : Tame a] {vm vm' : Vm} {x : α} (hf : vm.heap.FreeList)
    (hrun : a vm = .ok x vm') : vm.Advances noVar vm' :=
  (h.advances vm hf).of_ok hrun

instance return_ (x : α) : Tame (pure x : Action α) :=
  ⟨fun _ hf => .refl hf⟩

instance bind (a : Action α) (f : α → Action β) [ha : Tame a] [hf : ∀ x, Tame (f x)] :
    Tame (a >>= f) where
  advances vm hfree := by
    refine .bind (ha.advances vm hfree) fun x vm' hrun => ?_
    have hstep := of_ok hfree hrun
    exact hstep.trans ((hf x).advances vm' hstep.heap.freeList)

/-- An action that depends on the state in which it begins. -/
theorem reading {f : Vm → Action α} (h : ∀ vm, Tame (f vm)) : Tame fun vm => f vm vm :=
  ⟨fun vm => (h vm).advances vm⟩

instance alloc (cls : Ref) (p : Payload) : Tame (Vm.alloc cls p) where
  advances vm hf := by
    unfold Vm.alloc
    cases vm.heap.checkOwn cls with
    | error e => exact .refl hf
    | ok _ => exact ⟨Heap.Turns.place (Heap.Evolves.refl hf) _, fun f' hf' => ⟨f', hf', rfl⟩⟩

end Tame
end ObjectMachine
