import ObjectMachine.Proofs.Renaming.Payloads
import ObjectMachine.Vm.Copy

/-!
# ObjectMachine.Proofs.Copying.Trees

The tree of a value as a relation.

Packing reads the contents of some references and no others. A `View` says which references may be
read and what they hold, so that a tree stands with respect to a part of a heap and stays what it is
in any heap that agrees on that part.

* `View`, `Heap.view` — contents of references; all those of a heap.
* `View.Tree` — the reference leads to the tree, in less than a number of levels.
* `Heap.packWithin_eq_ok` — packing finds exactly the trees of the heap.
* `View.Tree.mono` — more references and more levels.
-/

namespace ObjectMachine

/-- Which references may be read, and what they hold. -/
abbrev View := Ref → Payload → Prop

/-- Everything in a heap. -/
def Heap.view (h : Heap) : View := fun r p => h.payload r = .ok p

namespace View

/-- The code object has the unit. -/
def Code (V : View) (code : Ref) (unit : CodeUnit) : Prop :=
  ∃ c, V code (.code c) ∧ c.unit = unit

/-- The module object, if there is one, has the name. -/
def Named (V : View) : Option Ref → Option String → Prop :=
  Option.Rel fun r name => ∃ m, V r (.module m) ∧ m.name = name

/-- The captured variable has the name, and its value the tree; an unbound one has neither. -/
def Captured (V : View) (T : Ref → Packed → Prop) (b : String × Ref) (q : String × Option Packed) :
    Prop :=
  b.1 = q.1 ∧ ∃ value, V b.2 (.var value) ∧ Option.Rel T value q.2

/-- What a method runs, if `T` gives the trees of values. -/
inductive Body (V : View) (T : Ref → Packed → Prop) : ObjectMachine.Body → PackedBody → Prop where
  | native (f : Native) : Body V T (.native f) (.native f)
  | bytecode {code : Ref} {module : Option Ref} {unit : CodeUnit} {name : Option String} :
      V.Code code unit → V.Named module name →
      Body V T (.bytecode code module) (.bytecode unit name)
  | closure {code : Ref} {module : Option Ref} {bindings : NameMap Ref} {unit : CodeUnit}
      {name : Option String} {ps : List (String × Option Packed)} :
      V.Code code unit → V.Named module name → List.Forall₂ (V.Captured T) bindings.entries ps →
      Body V T (.closure code module bindings) (.closure unit name (NameMap.sortByName ps))

/-- What an object holds, if `T` gives the trees of values. -/
inductive Contents (V : View) (T : Ref → Packed → Prop) : Payload → Packed → Prop where
  | nil : Contents V T .nil .nil
  | bool (b : Bool) : Contents V T (.bool b) (.bool b)
  | int (i : Int64) : Contents V T (.int i) (.int i)
  | float (x : Float) : Contents V T (.float x) (.float x)
  | str (b : ByteArray) : Contents V T (.str b) (.str b)
  | array {items : Array Ref} {ps : List Packed} :
      List.Forall₂ T items.toList ps → Contents V T (.array items) (.array ps)
  | hash {t : HashTable} {qs : List (Packed × Packed)} :
      List.Forall₂ (fun e q => T e.1 q.1 ∧ T e.2 q.2) t.entries.toList qs →
      Contents V T (.hash t) (.hash qs)
  | error {e : ErrorInfo} {cause : Option Packed} :
      Option.Rel T e.cause cause → Contents V T (.error e) (.error e.message cause e.backtrace)
  | method {m : Method} {body : PackedBody} {receiver : Option Packed} :
      V.Body T m.body body → Option.Rel T m.receiver receiver →
      Contents V T (.method m) (.method m.name body receiver)
  | task (t : TaskRef) : Contents V T (.task t) (.task t.task)

/-- The value has the tree, which goes less than `levels` levels down. -/
def Tree (V : View) : Nat → Ref → Packed → Prop
  | 0, _, _ => False
  | levels + 1, r, p => ∃ o, V r o ∧ V.Contents (V.Tree levels) o p

/-- The names are those of the variables. -/
theorem Captured.names {V : View} {T : Ref → Packed → Prop} {bs : List (String × Ref)}
    {qs : List (String × Option Packed)} (h : List.Forall₂ (V.Captured T) bs qs) :
    bs.map Prod.fst = qs.map Prod.fst := by
  rw [← List.forall₂_eq_eq_eq, List.forall₂_map_left_iff, List.forall₂_map_right_iff]
  exact h.imp fun _ _ hb => hb.1

/-! ### More references, more levels -/

section Mono

variable {V W : View} {S T : Ref → Packed → Prop}

/-- What the one says of code, modules and variables, the other says too. These are all that the
contents of an object are made of, beside values. -/
structure Serves (V W : View) : Prop where
  code : ∀ {r : Ref} {c : ObjectMachine.Code}, V r (.code c) → W r (.code c)
  module : ∀ {r : Ref} {m : Module}, V r (.module m) → W r (.module m)
  var : ∀ {r : Ref} {value : Option Ref}, V r (.var value) → W r (.var value)

theorem Serves.of_le (h : V ≤ W) : V.Serves W :=
  ⟨h _ _, h _ _, h _ _⟩

theorem Code.mono (hVW : V.Serves W) {code : Ref} {unit : CodeUnit} (h : V.Code code unit) :
    W.Code code unit := by
  obtain ⟨c, hc, hunit⟩ := h
  exact ⟨c, hVW.code hc, hunit⟩

theorem Named.mono (hVW : V.Serves W) {m : Option Ref} {name : Option String} (h : V.Named m name) :
    W.Named m name := by
  apply optionRel_imp h
  rintro r - s - ⟨d, hd, hs⟩
  exact ⟨d, hVW.module hd, hs⟩

theorem Captured.mono (hVW : V.Serves W) (hST : ∀ r p, S r p → T r p) {b : String × Ref}
    {q : String × Option Packed} (h : V.Captured S b q) : W.Captured T b q := by
  obtain ⟨hname, value, hvar, hvalue⟩ := h
  exact ⟨hname, value, hVW.var hvar, optionRel_imp hvalue fun _ _ _ _ => hST _ _⟩

theorem Body.mono (hVW : V.Serves W) (hST : ∀ r p, S r p → T r p) {b : ObjectMachine.Body}
    {q : PackedBody} (h : V.Body S b q) : W.Body T b q := by
  cases h with
  | native f => exact .native f
  | bytecode hcode hname => exact .bytecode (hcode.mono hVW) (hname.mono hVW)
  | closure hcode hname hps =>
    exact .closure (hcode.mono hVW) (hname.mono hVW) (hps.imp fun _ _ hb => hb.mono hVW hST)

theorem Contents.mono (hVW : V.Serves W) (hST : ∀ r p, S r p → T r p) {o : Payload} {p : Packed}
    (h : V.Contents S o p) : W.Contents T o p := by
  cases h with
  | nil => exact .nil
  | bool b => exact .bool b
  | int i => exact .int i
  | float x => exact .float x
  | str b => exact .str b
  | array hps => exact .array (hps.imp hST)
  | hash hqs => exact .hash (hqs.imp fun _ _ he => ⟨hST _ _ he.1, hST _ _ he.2⟩)
  | error hcause => exact .error (optionRel_imp hcause fun _ _ _ _ => hST _ _)
  | method hbody hrec =>
    exact .method (hbody.mono hVW hST) (optionRel_imp hrec fun _ _ _ _ => hST _ _)
  | task t => exact .task t

theorem Tree.mono (hVW : V ≤ W) : ∀ {m n : Nat} {r : Ref} {p : Packed},
    m ≤ n → V.Tree m r p → W.Tree n r p := by
  intro m
  induction m with
  | zero => intro n r p _ h; exact h.elim
  | succ m ih =>
    intro n r p hmn h
    obtain ⟨o, ho, hp⟩ := h
    cases n with
    | zero => omega
    | succ n => exact ⟨o, hVW _ _ ho, hp.mono (.of_le hVW) fun r p => ih (by omega)⟩

end Mono
end View

/-! ### Packing -/

namespace Heap

variable {h : Heap} {pack : Packer}

theorem except_bind_eq_ok {ε α β : Type} {x : Except ε α} {f : α → Except ε β} {b : β} :
    (x >>= f) = .ok b ↔ ∃ a, x = .ok a ∧ f a = .ok b := by
  cases x with
  | error e => simp [bind, Except.bind]
  | ok a => simp [bind, Except.bind]

theorem asking_eq_ok {α : Type} {x : Except Fatal α} {a : α} : asking x = .ok a ↔ x = .ok a := by
  cases x <;> simp [asking]

theorem packItems_eq_ok : ∀ {rs : List Ref} {ps : List Packed},
    packItems pack rs = .ok ps ↔ List.Forall₂ (fun r p => pack r = .ok p) rs ps := by
  intro rs
  induction rs with
  | nil => intro ps; simp [packItems, eq_comm]
  | cons r rest ih =>
    intro ps
    simp only [packItems, except_bind_eq_ok, ih, pure, Except.pure, Except.ok.injEq]
    constructor
    · rintro ⟨p, hp, qs, hqs, rfl⟩
      exact .cons hp hqs
    · rintro (_ | ⟨hp, hqs⟩)
      exact ⟨_, hp, _, hqs, rfl⟩

theorem packEntries_eq_ok : ∀ {es : List (Ref × Ref)} {ps : List (Packed × Packed)},
    packEntries pack es = .ok ps ↔
      List.Forall₂ (fun e p => pack e.1 = .ok p.1 ∧ pack e.2 = .ok p.2) es ps := by
  intro es
  induction es with
  | nil => intro ps; simp [packEntries, eq_comm]
  | cons e rest ih =>
    intro ps
    obtain ⟨k, v⟩ := e
    simp only [packEntries, except_bind_eq_ok, ih, pure, Except.pure, Except.ok.injEq]
    constructor
    · rintro ⟨p, hp, q, hq, qs, hqs, rfl⟩
      exact .cons ⟨hp, hq⟩ hqs
    · rintro (_ | ⟨⟨hp, hq⟩, hqs⟩)
      exact ⟨_, hp, _, hq, _, hqs, rfl⟩

theorem packOption_eq_ok {r : Option Ref} {p : Option Packed} :
    packOption pack r = .ok p ↔ Option.Rel (fun r p => pack r = .ok p) r p := by
  cases r with
  | none =>
    cases p with
    | none => exact iff_of_true rfl .none
    | some p => exact iff_of_false nofun nofun
  | some r =>
    simp only [packOption, except_bind_eq_ok, pure, Except.pure, Except.ok.injEq]
    constructor
    · rintro ⟨q, hq, rfl⟩
      exact .some hq
    · rintro (hq | _)
      exact ⟨_, hq, rfl⟩

theorem packBindings_eq_ok : ∀ {bs : List (String × Ref)} {qs : List (String × Option Packed)},
    packBindings h pack bs = .ok qs ↔
      List.Forall₂ (h.view.Captured fun r p => pack r = .ok p) bs qs := by
  intro bs
  induction bs with
  | nil => intro qs; simp [packBindings, eq_comm]
  | cons b rest ih =>
    intro qs
    obtain ⟨name, var⟩ := b
    rw [packBindings, except_bind_eq_ok]
    constructor
    · rintro ⟨o, ho, hrest⟩
      cases o <;> try cases hrest
      case var value =>
        obtain ⟨_, hvalue, hrest⟩ := except_bind_eq_ok.mp hrest
        cases hvalue
        obtain ⟨p, hp, hrest⟩ := except_bind_eq_ok.mp hrest
        obtain ⟨ps, hps, hqs⟩ := except_bind_eq_ok.mp hrest
        cases hqs
        exact .cons ⟨rfl, value, asking_eq_ok.mp ho, packOption_eq_ok.mp hp⟩ (ih.mp hps)
    · rintro (_ | ⟨⟨hname, value, ho, hp⟩, hps⟩)
      refine ⟨_, asking_eq_ok.mpr ho, except_bind_eq_ok.mpr ⟨value, rfl, ?_⟩⟩
      refine except_bind_eq_ok.mpr ⟨_, packOption_eq_ok.mpr hp, ?_⟩
      refine except_bind_eq_ok.mpr ⟨_, ih.mpr hps, ?_⟩
      cases hname
      rfl

theorem unitOf_eq_ok {code : Ref} {unit : CodeUnit} :
    h.unitOf code = .ok unit ↔ h.view.Code code unit := by
  simp only [unitOf, except_bind_eq_ok, asking_eq_ok]
  constructor
  · rintro ⟨o, ho, hunit⟩
    cases o <;> simp [throw, throwThe, MonadExceptOf.throw, pure, Except.pure] at hunit
    exact ⟨_, ho, hunit⟩
  · rintro ⟨c, hc, rfl⟩
    exact ⟨_, hc, rfl⟩

theorem moduleNameOf_eq_ok {m : Option Ref} {name : Option String} :
    h.moduleNameOf m = .ok name ↔ h.view.Named m name := by
  cases m with
  | none =>
    cases name with
    | none => exact iff_of_true rfl .none
    | some s => exact iff_of_false nofun nofun
  | some r =>
    simp only [moduleNameOf, except_bind_eq_ok, asking_eq_ok]
    constructor
    · rintro ⟨o, ho, hname⟩
      cases o <;> simp [throw, throwThe, MonadExceptOf.throw, pure, Except.pure] at hname
      subst hname
      exact .some ⟨_, ho, rfl⟩
    · rintro (⟨d, hd, rfl⟩ | _)
      exact ⟨_, hd, rfl⟩

theorem packBody_eq_ok {b : Body} {q : PackedBody} :
    h.packBody pack b = .ok q ↔ h.view.Body (fun r p => pack r = .ok p) b q := by
  cases b with
  | native f =>
    constructor
    · intro hq
      cases hq
      exact .native f
    · rintro ⟨⟩
      rfl
  | bytecode code module =>
    simp only [packBody, except_bind_eq_ok, unitOf_eq_ok, moduleNameOf_eq_ok]
    constructor
    · rintro ⟨unit, hunit, name, hname, heq⟩
      cases heq
      exact .bytecode hunit hname
    · rintro (_ | ⟨hunit, hname⟩)
      exact ⟨_, hunit, _, hname, rfl⟩
  | closure code module bindings =>
    simp only [packBody, except_bind_eq_ok, unitOf_eq_ok, moduleNameOf_eq_ok, packBindings_eq_ok]
    constructor
    · rintro ⟨ps, hps, unit, hunit, name, hname, heq⟩
      cases heq
      exact .closure hunit hname hps
    · rintro (_ | _ | ⟨hunit, hname, hps⟩)
      exact ⟨_, hps, _, hunit, _, hname, rfl⟩

/-- Packing succeeds exactly with the trees that the heap has. -/
theorem packWithin_eq_ok : ∀ {levels : Nat} {r : Ref} {p : Packed},
    h.packWithin levels r = .ok p ↔ h.view.Tree levels r p := by
  intro levels
  induction levels with
  | zero => intro r p; simp [packWithin, View.Tree]
  | succ m ih =>
    intro r p
    have hpack : (fun r p => h.packWithin m r = .ok p) = h.view.Tree m := by
      funext r p
      exact propext ih
    simp only [packWithin, except_bind_eq_ok, asking_eq_ok, View.Tree]
    apply exists_congr
    intro o
    apply and_congr_right
    intro _
    rw [← hpack]
    constructor
    · intro hp
      cases o with
      | nil => cases hp; exact .nil
      | bool b => cases hp; exact .bool b
      | int i => cases hp; exact .int i
      | float x => cases hp; exact .float x
      | str b => cases hp; exact .str b
      | task t => cases hp; exact .task t
      | array items =>
        obtain ⟨ps, hps, heq⟩ := except_bind_eq_ok.mp hp
        cases heq
        exact .array (packItems_eq_ok.mp hps)
      | hash t =>
        obtain ⟨qs, hqs, heq⟩ := except_bind_eq_ok.mp hp
        cases heq
        exact .hash (packEntries_eq_ok.mp hqs)
      | error e =>
        obtain ⟨cause, hcause, heq⟩ := except_bind_eq_ok.mp hp
        cases heq
        exact .error (packOption_eq_ok.mp hcause)
      | method d =>
        obtain ⟨receiver, hrec, hp⟩ := except_bind_eq_ok.mp hp
        obtain ⟨body, hbody, heq⟩ := except_bind_eq_ok.mp hp
        cases heq
        exact .method (packBody_eq_ok.mp hbody) (packOption_eq_ok.mp hrec)
      | object | cls | code | frame | module | var =>
        obtain ⟨c, -, hthrow⟩ := except_bind_eq_ok.mp hp
        cases hthrow
    · intro hp
      cases hp with
      | nil => rfl
      | bool => rfl
      | int => rfl
      | float => rfl
      | str => rfl
      | task => rfl
      | array hps => exact except_bind_eq_ok.mpr ⟨_, packItems_eq_ok.mpr hps, rfl⟩
      | hash hqs => exact except_bind_eq_ok.mpr ⟨_, packEntries_eq_ok.mpr hqs, rfl⟩
      | error hcause => exact except_bind_eq_ok.mpr ⟨_, packOption_eq_ok.mpr hcause, rfl⟩
      | method hbody hrec =>
        refine except_bind_eq_ok.mpr ⟨_, packOption_eq_ok.mpr hrec, ?_⟩
        exact except_bind_eq_ok.mpr ⟨_, packBody_eq_ok.mpr hbody, rfl⟩

end Heap
end ObjectMachine
