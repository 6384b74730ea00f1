import ObjectMachine.Object
import Mathlib.Data.List.Forall2
import Mathlib.Order.Basic

/-!
# ObjectMachine.Proofs.Renaming.Payloads

Contents of objects that are the same up to the names of the objects they refer to.

* `Renaming` — which references of one heap stand for which of another.
* `NameMap.Related`, `Class.Related`, `Payload.Related`, … — equal but for the references, and these
  stand for each other.
* `Payload.Related.imp` — only the references that the payloads hold matter.
-/

namespace ObjectMachine

/-- Which objects of one heap stand for which of another. -/
abbrev Renaming := Ref → Ref → Prop

variable {ρ σ : Renaming}

/-! ## Lists and options -/

section Lists

variable {α β : Type} {R S : α → β → Prop}

theorem forall₂_imp {as : List α} {bs : List β} (h : List.Forall₂ R as bs)
    (hS : ∀ a ∈ as, ∀ b ∈ bs, R a b → S a b) : List.Forall₂ S as bs := by
  induction h with
  | nil => exact .nil
  | cons hab _ ih =>
    refine .cons (hS _ (by simp) _ (by simp) hab) (ih fun a ha b hb => hS a ?_ b ?_)
    · exact List.mem_cons_of_mem _ ha
    · exact List.mem_cons_of_mem _ hb

theorem forall₂_getElem? {as : List α} {bs : List β} (h : List.Forall₂ R as bs) (i : Nat) :
    Option.Rel R as[i]? bs[i]? := by
  induction h generalizing i with
  | nil => exact .none
  | cons hab _ ih =>
    cases i with
    | zero => exact .some hab
    | succ i => simpa using ih i

theorem forall₂_mem_left {as : List α} {bs : List β} (h : List.Forall₂ R as bs) {a : α}
    (ha : a ∈ as) : ∃ b ∈ bs, R a b := by
  induction h with
  | nil => cases ha
  | @cons x y _ _ hab _ ih =>
    rcases List.mem_cons.mp ha with rfl | ha
    · exact ⟨y, by simp, hab⟩
    · obtain ⟨b, hb, hR⟩ := ih ha
      exact ⟨b, List.mem_cons_of_mem _ hb, hR⟩

theorem forall₂_mem_right {as : List α} {bs : List β} (h : List.Forall₂ R as bs) {b : β}
    (hb : b ∈ bs) : ∃ a ∈ as, R a b := by
  induction h with
  | nil => cases hb
  | @cons x y _ _ hab _ ih =>
    rcases List.mem_cons.mp hb with rfl | hb
    · exact ⟨x, by simp, hab⟩
    · obtain ⟨a, ha, hR⟩ := ih hb
      exact ⟨a, List.mem_cons_of_mem _ ha, hR⟩

theorem forall₂_modify {as : List α} {bs : List β} (h : List.Forall₂ R as bs) {f : α → α} {g : β → β}
    (hfg : ∀ a b, R a b → R (f a) (g b)) (i : Nat) :
    List.Forall₂ R (as.modify i f) (bs.modify i g) := by
  induction h generalizing i with
  | nil => cases i <;> exact .nil
  | cons hab hrest ih =>
    cases i with
    | zero => exact .cons (hfg _ _ hab) hrest
    | succ i => exact .cons hab (ih i)

theorem forall₂_set {as : List α} {bs : List β} (h : List.Forall₂ R as bs) {a : α} {b : β}
    (hab : R a b) (i : Nat) : List.Forall₂ R (as.set i a) (bs.set i b) := by
  induction h generalizing i with
  | nil => exact .nil
  | cons hxy hrest ih =>
    cases i with
    | zero => exact .cons hab hrest
    | succ i => exact .cons hxy (ih i)

theorem forall₂_replicate {a : α} {b : β} (hab : R a b) (n : Nat) :
    List.Forall₂ R (List.replicate n a) (List.replicate n b) := by
  induction n with
  | zero => exact .nil
  | succ n ih => exact .cons hab ih

theorem forall₂_dropLast {as : List α} {bs : List β} (h : List.Forall₂ R as bs) :
    List.Forall₂ R as.dropLast bs.dropLast := by
  rw [List.dropLast_eq_take, List.dropLast_eq_take, h.length_eq]
  exact List.forall₂_take _ h

theorem forall₂_getLast? {as : List α} {bs : List β} (h : List.Forall₂ R as bs) :
    Option.Rel R as.getLast? bs.getLast? := by
  rw [List.getLast?_eq_getElem?, List.getLast?_eq_getElem?, h.length_eq]
  exact forall₂_getElem? h _

theorem optionRel_imp {a : Option α} {b : Option β} (h : Option.Rel R a b)
    (hS : ∀ x ∈ a, ∀ y ∈ b, R x y → S x y) : Option.Rel S a b := by
  cases h with
  | none => exact .none
  | some h => exact .some (hS _ rfl _ rfl h)

theorem optionRel_toList {a : Option α} {b : Option β} (h : Option.Rel R a b) :
    List.Forall₂ R a.toList b.toList := by
  cases h with
  | none => exact .nil
  | some h => exact .cons h .nil

theorem optionRel_isSome {a : Option α} {b : Option β} (h : Option.Rel R a b) :
    a.isSome = b.isSome := by
  cases h <;> rfl

theorem optionRel_same {R : α → α → Prop} {a : Option α} (h : ∀ x ∈ a, R x x) :
    Option.Rel R a a := by
  cases a with
  | none => exact .none
  | some x => exact .some (h x rfl)

end Lists

/-! ## Names -/

namespace NameMap

/-- The same names in the same order, with values that stand for each other. -/
def Related (ρ : Renaming) (m n : NameMap Ref) : Prop :=
  List.Forall₂ (fun e f => e.1 = f.1 ∧ ρ e.2 f.2) m.entries n.entries

theorem lookup_related {es fs : List (String × Ref)}
    (h : List.Forall₂ (fun e f => e.1 = f.1 ∧ ρ e.2 f.2) es fs) (name : String) :
    Option.Rel ρ (es.lookup name) (fs.lookup name) := by
  induction h with
  | nil => exact .none
  | @cons e f es fs hef _ ih =>
    obtain ⟨a, r⟩ := e
    obtain ⟨b, s⟩ := f
    obtain ⟨rfl, hrs⟩ : a = b ∧ ρ r s := hef
    rw [List.lookup_cons, List.lookup_cons]
    split
    · exact .some hrs
    · exact ih

theorem insertIn_related {es fs : List (String × Ref)}
    (h : List.Forall₂ (fun e f => e.1 = f.1 ∧ ρ e.2 f.2) es fs) (name : String) {r s : Ref}
    (hrs : ρ r s) :
    List.Forall₂ (fun e f => e.1 = f.1 ∧ ρ e.2 f.2) (insertIn es name r) (insertIn fs name s) := by
  induction h with
  | nil => exact .cons ⟨rfl, hrs⟩ .nil
  | @cons e f es fs hef hrest ih =>
    obtain ⟨a, r'⟩ := e
    obtain ⟨b, s'⟩ := f
    obtain ⟨rfl, hrs'⟩ : a = b ∧ ρ r' s' := hef
    unfold insertIn
    split
    · exact .cons ⟨rfl, hrs⟩ hrest
    · exact .cons ⟨rfl, hrs'⟩ ih

namespace Related

variable {m n : NameMap Ref}

theorem empty : NameMap.Related ρ {} {} := .nil

theorem find? (h : m.Related ρ n) (name : String) :
    Option.Rel ρ (m.find? name) (n.find? name) :=
  lookup_related h name

theorem insert (h : m.Related ρ n) (name : String) {r s : Ref} (hrs : ρ r s) :
    (m.insert name r).Related ρ (n.insert name s) :=
  insertIn_related h name hrs

theorem contains (h : m.Related ρ n) (name : String) : m.contains name = n.contains name :=
  optionRel_isSome (h.find? name)

theorem values (h : m.Related ρ n) : List.Forall₂ ρ m.values n.values := by
  unfold NameMap.values
  rw [List.forall₂_map_left_iff, List.forall₂_map_right_iff]
  exact List.Forall₂.imp (fun _ _ h' => h'.2) h

theorem imp (h : m.Related ρ n) (hσ : ∀ x ∈ m.values, ∀ y ∈ n.values, ρ x y → σ x y) :
    m.Related σ n := by
  refine forall₂_imp h fun e he f hf hef => ⟨hef.1, hσ _ ?_ _ ?_ hef.2⟩
  · exact List.mem_map_of_mem he
  · exact List.mem_map_of_mem hf

theorem mono (h : m.Related ρ n) (hσ : ρ ≤ σ) : m.Related σ n :=
  h.imp fun _ _ _ _ => hσ _ _

theorem same (h : ∀ x ∈ m.values, ρ x x) : m.Related ρ m :=
  List.forall₂_same.mpr fun _ he => ⟨rfl, h _ (List.mem_map_of_mem he)⟩

end Related
end NameMap

/-! ## Payloads -/

structure Class.Related (ρ : Renaming) (c d : Class) : Prop where
  name : c.name = d.name
  super : Option.Rel ρ c.super d.super
  size : c.size = d.size
  slots : c.slots = d.slots
  methods : c.methods.Related ρ d.methods

def HashTable.Related (ρ : Renaming) (s t : HashTable) : Prop :=
  List.Forall₂ (fun e f => ρ e.1 f.1 ∧ ρ e.2 f.2) s.entries.toList t.entries.toList

inductive Body.Related (ρ : Renaming) : Body → Body → Prop where
  | native (f : Native) : Body.Related ρ (.native f) (.native f)
  | bytecode {c d : Ref} {m n : Option Ref} :
      ρ c d → Option.Rel ρ m n → Body.Related ρ (.bytecode c m) (.bytecode d n)
  | closure {c d : Ref} {m n : Option Ref} {b b' : NameMap Ref} :
      ρ c d → Option.Rel ρ m n → b.Related ρ b' →
      Body.Related ρ (.closure c m b) (.closure d n b')

structure Method.Related (ρ : Renaming) (m n : Method) : Prop where
  name : m.name = n.name
  body : m.body.Related ρ n.body
  receiver : Option.Rel ρ m.receiver n.receiver

structure Code.Related (ρ : Renaming) (c d : Code) : Prop where
  unit : c.unit = d.unit
  consts : List.Forall₂ ρ c.consts.toList d.consts.toList

structure Frame.Related (ρ : Renaming) (f g : Frame) : Prop where
  method : ρ f.method g.method
  locals : f.locals.Related ρ g.locals
  free : f.free.Related ρ g.free

structure Module.Related (ρ : Renaming) (m n : Module) : Prop where
  name : m.name = n.name
  locals : m.locals.Related ρ n.locals

structure ErrorInfo.Related (ρ : Renaming) (e f : ErrorInfo) : Prop where
  message : e.message = f.message
  cause : Option.Rel ρ e.cause f.cause
  backtrace : e.backtrace = f.backtrace

/-- Payloads that are equal but for the names of the objects they hold. -/
inductive Payload.Related (ρ : Renaming) : Payload → Payload → Prop where
  | object {s t : Array Ref} :
      List.Forall₂ ρ s.toList t.toList → Payload.Related ρ (.object s) (.object t)
  | cls {c d : Class} : c.Related ρ d → Payload.Related ρ (.cls c) (.cls d)
  | nil : Payload.Related ρ .nil .nil
  | bool (b : Bool) : Payload.Related ρ (.bool b) (.bool b)
  | int (i : Int64) : Payload.Related ρ (.int i) (.int i)
  | float (x : Float) : Payload.Related ρ (.float x) (.float x)
  | str (b : ByteArray) : Payload.Related ρ (.str b) (.str b)
  | array {s t : Array Ref} :
      List.Forall₂ ρ s.toList t.toList → Payload.Related ρ (.array s) (.array t)
  | hash {s t : HashTable} : s.Related ρ t → Payload.Related ρ (.hash s) (.hash t)
  | method {m n : Method} : m.Related ρ n → Payload.Related ρ (.method m) (.method n)
  | code {c d : Code} : c.Related ρ d → Payload.Related ρ (.code c) (.code d)
  | frame {f g : Frame} : f.Related ρ g → Payload.Related ρ (.frame f) (.frame g)
  | module {m n : Module} : m.Related ρ n → Payload.Related ρ (.module m) (.module n)
  | task (t : TaskRef) : Payload.Related ρ (.task t) (.task t)
  | var {v w : Option Ref} : Option.Rel ρ v w → Payload.Related ρ (.var v) (.var w)
  | error {e f : ErrorInfo} : e.Related ρ f → Payload.Related ρ (.error e) (.error f)

theorem HashTable.Related.keys {s t : HashTable} (h : s.Related ρ t) :
    List.Forall₂ ρ s.keys.toList t.keys.toList := by
  simp only [HashTable.keys, Array.toList_map, List.forall₂_map_left_iff,
    List.forall₂_map_right_iff]
  exact List.Forall₂.imp (fun _ _ h' => h'.1) h

theorem HashTable.Related.values {s t : HashTable} (h : s.Related ρ t) :
    List.Forall₂ ρ s.values.toList t.values.toList := by
  simp only [HashTable.values, Array.toList_map, List.forall₂_map_left_iff,
    List.forall₂_map_right_iff]
  exact List.Forall₂.imp (fun _ _ h' => h'.2) h

theorem HashTable.Related.size {s t : HashTable} (h : s.Related ρ t) : s.size = t.size := by
  simpa [HashTable.size] using h.length_eq

theorem HashTable.Related.imp {s t : HashTable} (h : s.Related ρ t)
    (hσ : ∀ x ∈ s.keys.toList ++ s.values.toList, ∀ y ∈ t.keys.toList ++ t.values.toList,
      ρ x y → σ x y) : s.Related σ t := by
  refine forall₂_imp h fun e he f hf hef => ⟨hσ _ ?_ _ ?_ hef.1, hσ _ ?_ _ ?_ hef.2⟩ <;>
    simp only [HashTable.keys, HashTable.values, Array.toList_map, List.mem_append]
  · exact .inl (List.mem_map_of_mem he)
  · exact .inl (List.mem_map_of_mem hf)
  · exact .inr (List.mem_map_of_mem he)
  · exact .inr (List.mem_map_of_mem hf)

theorem HashTable.Related.push {s t : HashTable} (h : s.Related ρ t) {k k' v v' : Ref} (hk : ρ k k')
    (hv : ρ v v') :
    HashTable.Related ρ ⟨s.entries.push (k, v)⟩ ⟨t.entries.push (k', v')⟩ := by
  unfold HashTable.Related
  rw [Array.toList_push, Array.toList_push]
  exact List.rel_append h (.cons ⟨hk, hv⟩ .nil)

theorem HashTable.Related.set {s t : HashTable} (h : s.Related ρ t) (i : Nat) {v v' : Ref}
    (hv : ρ v v') :
    HashTable.Related ρ ⟨s.entries.modify i fun e => (e.1, v)⟩
      ⟨t.entries.modify i fun e => (e.1, v')⟩ := by
  unfold HashTable.Related
  rw [Array.toList_modify, Array.toList_modify]
  exact forall₂_modify (f := fun e => (e.1, v)) (g := fun e => (e.1, v')) h
    (fun _ _ hef => ⟨hef.1, hv⟩) i

namespace Payload.Related

variable {p q : Payload}

theorem markFn? (h : p.Related ρ q) : p.markFn? = q.markFn? := by
  cases h <;> rfl

/-- Only the references that the payloads hold matter. -/
theorem imp (h : p.Related ρ q) (hσ : ∀ x ∈ p.refs, ∀ y ∈ q.refs, ρ x y → σ x y) :
    p.Related σ q := by
  cases h with
  | object h => exact .object (forall₂_imp h hσ)
  | array h => exact .array (forall₂_imp h hσ)
  | hash h => exact .hash (h.imp hσ)
  | cls h =>
    refine .cls ⟨h.name, optionRel_imp h.super fun x hx y hy => hσ x ?_ y ?_, h.size, h.slots,
      h.methods.imp fun x hx y hy => hσ x ?_ y ?_⟩ <;>
      simp_all [refs, Payload.markFn?, MarkFn.targets]
  | @method m n h =>
    obtain ⟨name, body, receiver⟩ := m
    obtain ⟨name', body', receiver'⟩ := n
    obtain ⟨hname, hbody, hreceiver⟩ := h
    refine .method ⟨hname, ?_, optionRel_imp hreceiver fun x hx y hy => hσ x ?_ y ?_⟩
    · cases hbody with
      | native f => exact .native f
      | bytecode hc hm =>
        refine .bytecode (hσ _ ?_ _ ?_ hc) (optionRel_imp hm fun x hx y hy => hσ x ?_ y ?_) <;>
          simp_all [refs, Payload.markFn?, MarkFn.targets]
      | closure hc hm hb =>
        refine .closure (hσ _ ?_ _ ?_ hc) (optionRel_imp hm fun x hx y hy => hσ x ?_ y ?_)
          (hb.imp fun x hx y hy => hσ x ?_ y ?_) <;>
          simp_all [refs, Payload.markFn?, MarkFn.targets]
    · simp_all [refs, Payload.markFn?, MarkFn.targets]
    · simp_all [refs, Payload.markFn?, MarkFn.targets]
  | code h => exact .code ⟨h.unit, forall₂_imp h.consts hσ⟩
  | frame h =>
    refine .frame ⟨hσ _ ?_ _ ?_ h.method, h.locals.imp fun x hx y hy => hσ x ?_ y ?_,
      h.free.imp fun x hx y hy => hσ x ?_ y ?_⟩ <;>
      simp_all [refs, Payload.markFn?, MarkFn.targets]
  | module h => exact .module ⟨h.name, h.locals.imp hσ⟩
  | var h =>
    refine .var (optionRel_imp h fun x hx y hy => hσ x ?_ y ?_) <;>
      simp_all [refs, Payload.markFn?, MarkFn.targets]
  | error h =>
    refine .error ⟨h.message, optionRel_imp h.cause fun x hx y hy => hσ x ?_ y ?_, h.backtrace⟩ <;>
      simp_all [refs, Payload.markFn?, MarkFn.targets]
  | nil => exact .nil
  | bool b => exact .bool b
  | int i => exact .int i
  | float x => exact .float x
  | str b => exact .str b
  | task t => exact .task t

theorem mono (h : p.Related ρ q) (hσ : ρ ≤ σ) : p.Related σ q :=
  h.imp fun _ _ _ _ => hσ _ _

/-- The references that the payloads hold stand for each other, in order. -/
theorem refs (h : p.Related ρ q) : List.Forall₂ ρ p.refs q.refs := by
  cases h with
  | object h => exact h
  | array h => exact h
  | hash h => exact List.rel_append h.keys h.values
  | cls h => exact List.rel_append (optionRel_toList h.super) h.methods.values
  | @method m n h =>
    obtain ⟨name, body, receiver⟩ := m
    obtain ⟨name', body', receiver'⟩ := n
    obtain ⟨-, hbody, hreceiver⟩ := h
    refine List.rel_append (optionRel_toList hreceiver) ?_
    cases hbody with
    | native f => exact .nil
    | bytecode hc hm => exact .cons hc (optionRel_toList hm)
    | closure hc hm hb => exact .cons hc (List.rel_append (optionRel_toList hm) hb.values)
  | code h => exact h.consts
  | frame h => exact .cons h.method (List.rel_append h.locals.values h.free.values)
  | module h => exact h.locals.values
  | var h => exact optionRel_toList h
  | error h => exact optionRel_toList h.cause
  | nil | bool | int | float | str | task => exact .nil

/-- A payload is related to itself by what relates its references to themselves. -/
theorem same (h : ∀ x ∈ p.refs, ρ x x) : p.Related ρ p := by
  cases p with
  | object s => exact .object (List.forall₂_same.mpr h)
  | array s => exact .array (List.forall₂_same.mpr h)
  | hash t =>
    refine .hash (List.forall₂_same.mpr fun e he => ⟨h _ ?_, h _ ?_⟩) <;>
      simp only [Payload.refs, Payload.markFn?, MarkFn.targets, HashTable.keys, HashTable.values,
        Array.toList_map, List.mem_append]
    · exact .inl (List.mem_map_of_mem he)
    · exact .inr (List.mem_map_of_mem he)
  | cls c =>
    refine .cls ⟨rfl, optionRel_same fun x hx => h x ?_, rfl, rfl, .same fun x hx => h x ?_⟩ <;>
      simp_all [Payload.refs, Payload.markFn?, MarkFn.targets]
  | method m =>
    obtain ⟨name, body, receiver⟩ := m
    refine .method ⟨rfl, ?_, optionRel_same fun x hx => h x ?_⟩
    · cases body with
      | native f => exact .native f
      | bytecode c m =>
        refine .bytecode (h _ ?_) (optionRel_same fun x hx => h x ?_) <;>
          simp_all [Payload.refs, Payload.markFn?, MarkFn.targets]
      | closure c m b =>
        refine .closure (h _ ?_) (optionRel_same fun x hx => h x ?_) (.same fun x hx => h x ?_) <;>
          simp_all [Payload.refs, Payload.markFn?, MarkFn.targets]
    · simp_all [Payload.refs, Payload.markFn?, MarkFn.targets]
  | code c => exact .code ⟨rfl, List.forall₂_same.mpr h⟩
  | frame f =>
    refine .frame ⟨h _ ?_, .same fun x hx => h x ?_, .same fun x hx => h x ?_⟩ <;>
      simp_all [Payload.refs, Payload.markFn?, MarkFn.targets]
  | module m => exact .module ⟨rfl, .same h⟩
  | var v =>
    exact .var (optionRel_same fun x hx => h x (by
      simp_all [Payload.refs, Payload.markFn?, MarkFn.targets]))
  | error e =>
    exact .error ⟨rfl, optionRel_same fun x hx => h x (by
      simp_all [Payload.refs, Payload.markFn?, MarkFn.targets]), rfl⟩
  | nil => exact .nil
  | bool b => exact .bool b
  | int i => exact .int i
  | float x => exact .float x
  | str b => exact .str b
  | task t => exact .task t

end Payload.Related
end ObjectMachine
