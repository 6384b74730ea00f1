import ObjectMachine.Proofs.Renaming.Making
import ObjectMachine.Vm.Copy

/-!
# ObjectMachine.Proofs.Renaming.Copies

Values that stand for each other have the same tree, and a tree is rebuilt in the same way in
related states.

* `Heap.Related.pack`, `Observes.pack` — the tree of a value.
* `Respects.unpack` — the value of a tree.
-/

namespace ObjectMachine

variable {ρ : Renaming}

/-! ## Packing -/

/-- Packers that give the same trees for objects that stand for each other. -/
def Heap.Packer.Related (ρ : Renaming) (f g : Packer) : Prop :=
  ∀ a b, ρ a b → Agree (Stop.Related ρ) Eq (f a) (g b)

namespace Heap

variable {h h' : Heap} {f g : Packer}

theorem asking_agree {α β : Type} {R : α → β → Prop} {x : Except Fatal α} {y : Except Fatal β}
    (hxy : Agree (Fatal.Related ρ) R x y) : Agree (Stop.Related ρ) R (asking x) (asking y) := by
  cases hxy with
  | ok hR => exact .ok hR
  | error he => exact .error (.fatal he)

theorem packItems_agree (hfg : f.Related ρ g) {as bs : List Ref}
    (hab : List.Forall₂ ρ as bs) :
    Agree (Stop.Related ρ) Eq (packItems f as) (packItems g bs) := by
  induction hab with
  | nil => exact .ok rfl
  | cons hx _ ih =>
    unfold packItems
    exact (hfg _ _ hx).bindEq fun p => ih.bindEq fun ps => .ok rfl

theorem packEntries_agree (hfg : f.Related ρ g) {es es' : List (Ref × Ref)}
    (hes : List.Forall₂ (fun e e' => ρ e.1 e'.1 ∧ ρ e.2 e'.2) es es') :
    Agree (Stop.Related ρ) Eq (packEntries f es) (packEntries g es') := by
  induction hes with
  | nil => exact .ok rfl
  | cons hx _ ih =>
    unfold packEntries
    refine (hfg _ _ hx.1).bindEq fun p => (hfg _ _ hx.2).bindEq fun q => ?_
    exact ih.bindEq fun ps => .ok rfl

theorem packOption_agree (hfg : f.Related ρ g) {a b : Option Ref}
    (hab : Option.Rel ρ a b) :
    Agree (Stop.Related ρ) Eq (packOption f a) (packOption g b) := by
  cases hab with
  | none => exact .ok rfl
  | some hx =>
    unfold packOption
    exact (hfg _ _ hx).bindEq fun p => .ok rfl

namespace Related

theorem packBindings (hr : h.Related ρ h') (hfg : f.Related ρ g)
    {es es' : List (String × Ref)}
    (hes : List.Forall₂ (fun e e' => e.1 = e'.1 ∧ ρ e.2 e'.2) es es') :
    Agree (Stop.Related ρ) Eq (h.packBindings f es) (h'.packBindings g es') := by
  induction hes with
  | nil => exact .ok rfl
  | @cons e e' _ _ hx _ ih =>
    obtain ⟨name, r⟩ := e
    obtain ⟨name', s⟩ := e'
    obtain ⟨rfl, hrs⟩ : name = name' ∧ ρ r s := hx
    unfold Heap.packBindings
    refine (asking_agree (hr.payload hrs)).bind fun p q hpq => ?_
    cases hpq with
    | var hv =>
      refine (packOption_agree hfg hv).bindEq fun value => ?_
      exact ih.bindEq fun rest => .ok rfl
    | _ => exact .error (.fatal (.wrongKind hrs))

theorem unitOf (hr : h.Related ρ h') {r s : Ref} (hrs : ρ r s) :
    Agree (Stop.Related ρ) Eq (h.unitOf r) (h'.unitOf s) := by
  unfold Heap.unitOf
  refine (asking_agree (hr.payload hrs)).bind fun p q hpq => ?_
  cases hpq with
  | code hc => exact .ok hc.unit
  | _ => exact .error (.fatal (.wrongKind hrs))

theorem moduleNameOf (hr : h.Related ρ h') {m n : Option Ref} (hmn : Option.Rel ρ m n) :
    Agree (Stop.Related ρ) Eq (h.moduleNameOf m) (h'.moduleNameOf n) := by
  cases hmn with
  | none => exact .ok rfl
  | some hrs =>
    unfold Heap.moduleNameOf
    refine (asking_agree (hr.payload hrs)).bind fun p q hpq => ?_
    cases hpq with
    | module hm => exact .ok (congrArg some hm.name)
    | _ => exact .error (.fatal (.wrongKind hrs))

theorem packBody (hr : h.Related ρ h') (hfg : f.Related ρ g) {b c : Body}
    (hbc : b.Related ρ c) :
    Agree (Stop.Related ρ) Eq (h.packBody f b) (h'.packBody g c) := by
  cases hbc with
  | native n => exact .ok rfl
  | bytecode hc hm =>
    unfold Heap.packBody
    refine (hr.unitOf hc).bindEq fun unit => ?_
    exact (hr.moduleNameOf hm).bindEq fun name => .ok rfl
  | closure hc hm hb =>
    unfold Heap.packBody
    refine (hr.packBindings hfg hb).bindEq fun packed => ?_
    refine (hr.unitOf hc).bindEq fun unit => ?_
    exact (hr.moduleNameOf hm).bindEq fun name => .ok rfl

theorem packWithin (hr : h.Related ρ h') (levels : Nat) :
    Packer.Related ρ (h.packWithin levels) (h'.packWithin levels) := by
  induction levels with
  | zero => exact fun a b _ => .error (.raised (.same nofun))
  | succ levels ih =>
    intro a b hab
    unfold Heap.packWithin
    refine (asking_agree (hr.payload hab)).bind fun p q hpq => ?_
    have hrefused : Agree (Stop.Related ρ) Eq
        (asking (h.className a) >>= fun c => (throw (.raised (.pack (.unsendable c))) : Except Stop Packed))
        (asking (h'.className b) >>= fun c => throw (.raised (.pack (.unsendable c)))) :=
      (asking_agree (hr.className hab)).bindEq fun c => .error (.raised (.same nofun))
    cases hpq with
    | nil => exact .ok rfl
    | bool b => exact .ok rfl
    | int i => exact .ok rfl
    | float x => exact .ok rfl
    | str b => exact .ok rfl
    | task t => exact .ok rfl
    | array hxs => exact (packItems_agree ih hxs).bindEq fun ps => .ok rfl
    | hash ht => exact (packEntries_agree ih ht).bindEq fun ps => .ok rfl
    | error he =>
      refine (packOption_agree ih he.cause).bindEq fun cause => .ok ?_
      rw [he.message, he.backtrace]
    | method hm =>
      refine (packOption_agree ih hm.receiver).bindEq fun receiver => ?_
      refine (hr.packBody ih hm.body).bindEq fun body => .ok ?_
      rw [hm.name]
    | object _ => exact hrefused
    | cls _ => exact hrefused
    | code _ => exact hrefused
    | frame _ => exact hrefused
    | module _ => exact hrefused
    | var _ => exact hrefused

theorem pack (hr : h.Related ρ h') : Packer.Related ρ h.pack h'.pack :=
  hr.packWithin _

end Related
end Heap

theorem Observes.pack {r s : Ref} (hrs : ρ r s) : Observes ρ (Vm.pack r) (Vm.pack s) Eq := by
  intro v w hvw
  have h := hvw.heap.pack r s hrs
  unfold Vm.pack
  generalize v.heap.pack r = x, w.heap.pack s = y at h ⊢
  cases h with
  | ok heq => exact .ok heq
  | error he => exact .error he

/-! ## Unpacking -/

namespace Respects

theorem importOption (name : Option String) :
    Respects ρ (Vm.importOption name) (Vm.importOption name) fun σ => Option.Rel σ := by
  cases name with
  | none => exact return_ .none
  | some name =>
    unfold Vm.importOption
    exact (importModule name).bind fun σ hσ x y hxy => return_ (.some hxy)

mutual

theorem unpack : ∀ (p : Packed) {ρ : Renaming},
    Respects ρ (Vm.unpack p) (Vm.unpack p) Renamed
  | .nil, ρ => by unfold Vm.unpack; exact Observes.nil.respects
  | .bool b, ρ => by unfold Vm.unpack; exact (Observes.bool b).respects
  | .int i, ρ => by unfold Vm.unpack; exact newInt i
  | .float x, ρ => by unfold Vm.unpack; exact newFloat x
  | .str b, ρ => by unfold Vm.unpack; exact newBytes b
  | .array items, ρ => by
    unfold Vm.unpack
    exact (unpackItems items).bind fun σ hσ xs ys hxys => newArray hxys
  | .hash entries, ρ => by
    unfold Vm.unpack
    refine newHash.bind fun σ hσ x y hxy => ?_
    exact (unpackEntries hxy entries).bind fun τ hτ _ _ _ => return_ (hτ _ _ hxy)
  | .error message cause lines, ρ => by
    unfold Vm.unpack
    exact (unpackOption cause).bind fun σ hσ x y hxy => allocError message hxy lines
  | .method name body receiver, ρ => by
    unfold Vm.unpack
    refine (unpackOption receiver).bind fun σ hσ x y hxy => ?_
    refine (unpackBody body).bind fun τ hτ b c hbc => ?_
    exact newMethod name hbc (optionRel_imp hxy fun _ _ _ _ => hτ _ _)
  | .task t, ρ => by unfold Vm.unpack; exact newTask t

theorem unpackBody : ∀ (body : PackedBody) {ρ : Renaming},
    Respects ρ (Vm.unpackBody body) (Vm.unpackBody body) Body.Related
  | .native f, ρ => by unfold Vm.unpackBody; exact return_ (.native f)
  | .bytecode unit module, ρ => by
    unfold Vm.unpackBody
    refine (importOption module).bind fun σ hσ m n hmn => ?_
    refine (loadCode unit).bind fun τ hτ x y hxy => return_ ?_
    exact .bytecode hxy (optionRel_imp hmn fun _ _ _ _ => hτ _ _)
  | .closure unit module bindings, ρ => by
    unfold Vm.unpackBody
    refine (importOption module).bind fun σ hσ m n hmn => ?_
    refine (loadCode unit).bind fun τ hτ x y hxy => ?_
    refine (unpackBindings bindings .empty).bind fun υ hυ b c hbc => return_ ?_
    exact .closure (hυ _ _ hxy) (optionRel_imp hmn fun _ _ _ _ h => hυ _ _ (hτ _ _ h)) hbc

theorem unpackItems : ∀ (items : List Packed) {ρ : Renaming},
    Respects ρ (Vm.unpackItems items) (Vm.unpackItems items) fun σ => List.Forall₂ σ
  | [], ρ => by unfold Vm.unpackItems; exact return_ .nil
  | p :: rest, ρ => by
    unfold Vm.unpackItems
    refine (unpack p).bind fun σ hσ x y hxy => ?_
    exact (unpackItems rest).bind fun τ hτ xs ys hxys => return_ (.cons (hτ _ _ hxy) hxys)

theorem unpackEntries : ∀ {ρ : Renaming} {r s : Ref} (_ : ρ r s) (entries : List (Packed × Packed)),
    Respects ρ (Vm.unpackEntries r entries) (Vm.unpackEntries s entries) Anything
  | ρ, r, s, _, [] => by unfold Vm.unpackEntries; exact return_ trivial
  | ρ, r, s, hrs, (k, v) :: rest => by
    unfold Vm.unpackEntries
    refine (unpack k).bind fun σ hσ x y hxy => ?_
    refine (unpack v).bind fun τ hτ a b hab => ?_
    have hrs' : τ r s := hτ _ _ (hσ _ _ hrs)
    refine (hashSet hrs' (hτ _ _ hxy) hab).bind fun υ hυ _ _ _ => ?_
    exact unpackEntries (hυ _ _ hrs') rest

theorem unpackOption : ∀ (value : Option Packed) {ρ : Renaming},
    Respects ρ (Vm.unpackOption value) (Vm.unpackOption value) fun σ => Option.Rel σ
  | none, ρ => by unfold Vm.unpackOption; exact return_ .none
  | some p, ρ => by
    unfold Vm.unpackOption
    exact (unpack p).bind fun σ hσ x y hxy => return_ (.some hxy)

theorem unpackBindings : ∀ (bindings : List (String × Option Packed)) {ρ : Renaming}
    {vars vars' : NameMap Ref} (_ : vars.Related ρ vars'),
    Respects ρ (Vm.unpackBindings bindings vars) (Vm.unpackBindings bindings vars')
      NameMap.Related
  | [], ρ, vars, vars', h => by unfold Vm.unpackBindings; exact return_ h
  | (name, value) :: rest, ρ, vars, vars', h => by
    unfold Vm.unpackBindings
    refine (unpackOption value).bind fun σ hσ x y hxy => ?_
    refine (newVar hxy).bind fun τ hτ a b hab => ?_
    exact unpackBindings rest ((h.mono (hσ.trans hτ)).insert name hab)

end

end Respects
end ObjectMachine
