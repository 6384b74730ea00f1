import ObjectMachine.Proofs.Heap.Sound
import ObjectMachine.Proofs.Scopes.Evolution

/-!
# ObjectMachine.Proofs.Scopes.Bindings

Which variables are bound to which names, and what new objects make of that.

Frames, modules and closures bind names to variables. What holds of a task all along is that they
bind variables only, and that whatever is taken for a module is one.

* `Payload.Binds`, `Heap.Bound` — a name is bound to a variable.
* `Vm.Neat` — bound are variables, and looked up are modules.
* `Vm.KeepsNames` — the variables that are there keep their names, and a new one has one name.
* `Vm.Loose` — a new variable that has no name yet.
* `Vm.Gathers`, `Vm.Suits` — the names that a new object may bind.
* `Vm.KeepsNames.place`, `Vm.KeepsNames.update`, `Vm.KeepsNames.addLocal` — new objects, other
  contents and new names of modules.
-/

namespace ObjectMachine

open ObjectMachine.Action

/-- The variables that a body has captured. -/
def Body.bindings : Body → NameMap Ref
  | .closure _ _ bindings => bindings
  | _ => {}

/-- A frame, a module or a closure binds a name to a variable. -/
def Payload.Binds (p : Payload) (name : String) (x : Ref) : Prop :=
  match p with
  | .frame f => f.locals.find? name = some x ∨ f.free.find? name = some x
  | .module m => m.locals.find? name = some x
  | .method m => m.body.bindings.find? name = some x
  | _ => False

namespace Heap

variable {A : Ref → Prop} {h h' : Heap} {r x : Ref} {p : Payload} {name : String}

def Bound (h : Heap) (name : String) (x : Ref) : Prop :=
  ∃ r p, h.payload r = .ok p ∧ p.Binds name x

def IsVar (h : Heap) (x : Ref) : Prop :=
  ∃ value, h.payload x = .ok (.var value)

def IsModule (h : Heap) (r : Ref) : Prop :=
  ∃ m, h.payload r = .ok (.module m)

theorem contains_of_payload (hp : h.payload r = .ok p) : h.contains r = true := by
  obtain ⟨k, hget⟩ := payload_eq_ok_iff.mp hp
  exact contains_of_get hget

theorem IsVar.contains (hx : h.IsVar x) : h.contains x = true := by
  obtain ⟨value, hvalue⟩ := hx
  exact contains_of_payload hvalue

/-- An object after an allocation is the new one, or was there before. -/
theorem payload_place_cases (hf : h.FreeList) {o : Obj} (hr : (h.place o).2.payload r = .ok p) :
    r = (h.place o).1 ∧ p = o.payload ∨ h.payload r = .ok p := by
  obtain ⟨k, hk⟩ := payload_eq_ok_iff.mp hr
  rcases get_place_cases hf o hk with ⟨hr, rfl⟩ | hget
  · exact .inl ⟨hr, rfl⟩
  · exact .inr (payload_eq_ok_iff.mpr ⟨k, hget⟩)

theorem payload_place_self (hf : h.FreeList) (o : Obj) :
    (h.place o).2.payload (h.place o).1 = .ok o.payload :=
  payload_eq_ok_iff.mpr ⟨o.cls, (get_place hf o _).trans (if_pos rfl)⟩

/-- What is in a heap after a change was there before, perhaps with other contents. -/
theorem payload_update_cases {f : Payload → Payload} {q : Payload}
    (hr : (h.update x f).payload r = .ok q) :
    ∃ p, h.payload r = .ok p ∧ (q = p ∨ q = f p) := by
  obtain ⟨k, hk⟩ := payload_eq_ok_iff.mp hr
  rw [get_update] at hk
  cases ho : h.get r with
  | error e =>
    rw [ho] at hk
    cases hk
  | ok o =>
    rw [ho] at hk
    refine ⟨o.payload, payload_eq_ok_iff.mpr ⟨o.cls, ho⟩, ?_⟩
    simp only [Except.map, Except.ok.injEq] at hk
    split at hk
    · cases hk
      exact .inr rfl
    · cases hk
      exact .inl rfl

theorem Evolves.isVar (he : h.Evolves A h') (hx : h.IsVar x) : h'.IsVar x := by
  obtain ⟨value, hvalue⟩ := hx
  obtain ⟨q, hq, hvq⟩ := he.payload hvalue
  cases hvq with
  | same => exact ⟨_, hq⟩
  | var _ y _ => exact ⟨_, hq⟩

theorem Evolves.isModule (he : h.Evolves A h') (hr : h.IsModule r) : h'.IsModule r := by
  obtain ⟨m, hm⟩ := hr
  obtain ⟨q, hq, hmq⟩ := he.payload hm
  cases hmq with
  | same => exact ⟨_, hq⟩
  | module _ _ => exact ⟨_, hq⟩

/-- Objects that stay as they are go on binding their names. -/
theorem Turns.binds (ht : h.Turns (fun _ => Eq) h') (hb : h.Bound name x) : h'.Bound name x := by
  obtain ⟨r, p, hp, hpx⟩ := hb
  obtain ⟨_, hq, rfl⟩ := ht.payload hp
  exact ⟨r, p, hq, hpx⟩

/-- Only the new name of a module is new. -/
theorem bound_addLocal {n : String} {y : Ref}
    (hb : (h.update r (Payload.addLocal name x)).Bound n y) : h.Bound n y ∨ n = name ∧ y = x := by
  obtain ⟨s, q, hq, hqy⟩ := hb
  obtain ⟨p, hp, rfl | rfl⟩ := payload_update_cases hq
  · exact .inl ⟨s, q, hp, hqy⟩
  · cases p with
    | module m =>
      by_cases hn : n = name
      · subst hn
        have hfound : (m.locals.insert n x).find? n = some y := hqy
        rw [NameMap.find?_insert_self] at hfound
        exact .inr ⟨rfl, (Option.some.inj hfound).symm⟩
      · exact .inl ⟨s, .module m, hp, (NameMap.find?_insert_ne hn).symm.trans hqy⟩
    | _ => exact .inl ⟨s, _, hp, hqy⟩

/-- What was in a heap before a change is there after it, perhaps with other contents. -/
theorem payload_update_kept {s : Ref} {q : Payload} (r : Ref) (f : Payload → Payload)
    (hq : h.payload s = .ok q) :
    ∃ q', (h.update r f).payload s = .ok q' ∧ (q' = q ∨ q' = f q) := by
  obtain ⟨k, hk⟩ := payload_eq_ok_iff.mp hq
  have hget := get_update h r f s
  rw [hk] at hget
  by_cases hcell : r.cell = s.cell
  · exact ⟨_, payload_eq_ok_iff.mpr ⟨k, by simpa [Except.map, hcell] using hget⟩, .inr rfl⟩
  · exact ⟨_, payload_eq_ok_iff.mpr ⟨k, by simpa [Except.map, hcell] using hget⟩, .inl rfl⟩

theorem binds_place (hf : h.FreeList) {o : Obj} (hb : (h.place o).2.Bound name x) :
    h.Bound name x ∨ o.payload.Binds name x := by
  obtain ⟨r, p, hp, hpx⟩ := hb
  rcases payload_place_cases hf hp with ⟨-, rfl⟩ | hold
  · exact .inr hpx
  · exact .inl ⟨r, p, hold, hpx⟩

end Heap

/-! ## Tasks -/

/-- What a task takes for a module: the modules of running frames and of methods, and what is in the
module table. -/
inductive Vm.Scope (v : Vm) (r : Ref) : Prop where
  | frame {f : ActiveFrame} : f ∈ v.frames → f.module = some r → Scope v r
  | method {x : Ref} {m : Method} : v.heap.payload x = .ok (.method m) →
      m.body.module? = some r → Scope v r
  | table {name : String} : v.modules.find? name = some r → Scope v r

/-- The same objects, the same running frames and the same module table. -/
structure Vm.Same (v w : Vm) : Prop where
  heap : v.heap = w.heap
  frames : v.frames = w.frames
  modules : v.modules = w.modules

theorem Vm.Same.refl (v : Vm) : v.Same v :=
  ⟨rfl, rfl, rfl⟩

theorem Vm.Same.scope {v w : Vm} {r : Ref} (hs : v.Same w) (hr : v.Scope r) : w.Scope r := by
  cases hr with
  | frame hmem hmodule => exact .frame (hs.frames ▸ hmem) hmodule
  | method hm hmodule => exact .method (hs.heap ▸ hm) hmodule
  | table hfound => exact .table (hs.modules ▸ hfound)

/-- Names are bound to variables, and names are looked up in modules. -/
structure Vm.Neat (v : Vm) : Prop where
  vars : ∀ name x, v.heap.Bound name x → v.heap.IsVar x
  scopes : ∀ r, v.Scope r → v.heap.IsModule r

/-- The variables that were there have no names but those that they had, and a new one has one. -/
structure Vm.KeepsNames (v v' : Vm) : Prop where
  neat : v'.Neat
  kept : ∀ name x, v.heap.contains x = true → v'.heap.Bound name x → v.heap.Bound name x
  single : ∀ name other x, v.heap.contains x = false → v'.heap.Bound name x →
    v'.heap.Bound other x → name = other

/-- A variable that is new since `v₀` and has no name. -/
structure Vm.Loose (v₀ v : Vm) (x : Ref) : Prop where
  var : v.heap.IsVar x
  fresh : v₀.heap.contains x = false
  unbound : ∀ name, ¬ v.heap.Bound name x

/-- A map that gives variables the names that they have, and loose ones one name each. -/
def Vm.Gathers (v₀ v : Vm) (vars : NameMap Ref) : Prop :=
  ∀ name x, vars.find? name = some x →
    v.heap.Bound name x ∨ v₀.Loose v x ∧ ∀ other, vars.find? other = some x → other = name

/-- The contents that a new object may have: it gives variables the names that they have, and loose
ones one name each. -/
structure Vm.Suits (v₀ v : Vm) (p : Payload) : Prop where
  binds : ∀ name x, p.Binds name x →
    v.heap.Bound name x ∨ v₀.Loose v x ∧ ∀ other, p.Binds other x → other = name
  scope : ∀ m r, p = .method m → m.body.module? = some r → v.heap.IsModule r

namespace Vm.Neat

variable {v : Vm} {p : Payload} {x : Ref}

theorem place (h : v.Neat) (hf : v.heap.FreeList) (k : Ref)
    (hvars : ∀ name x, p.Binds name x → v.heap.IsVar x)
    (hscope : ∀ m r, p = .method m → m.body.module? = some r → v.heap.IsModule r) :
    Vm.Neat { v with heap := (v.heap.place ⟨k, p⟩).2 } := by
  have hevolves : v.heap.Evolves noVar (v.heap.place ⟨k, p⟩).2 :=
    Heap.Turns.place (Heap.Evolves.refl hf) _
  refine ⟨fun name x hb => hevolves.isVar ?_, fun r hr => hevolves.isModule ?_⟩
  · exact (Heap.binds_place hf hb).elim (h.vars name x) (hvars name x)
  · cases hr with
    | frame hmem hmodule => exact h.scopes r (.frame hmem hmodule)
    | table hfound => exact h.scopes r (.table hfound)
    | method hm hmodule =>
      rcases Heap.payload_place_cases hf hm with ⟨-, hnew⟩ | hold
      · exact hscope _ r hnew.symm hmodule
      · exact h.scopes r (.method hold hmodule)

theorem addLocal (h : v.Neat) (r : Ref) (name : String) (hx : v.heap.IsVar x) :
    Vm.Neat { v with heap := v.heap.update r (Payload.addLocal name x) } := by
  have hvar : ∀ {y}, v.heap.IsVar y → (v.heap.update r (Payload.addLocal name x)).IsVar y := by
    rintro y ⟨value, hvalue⟩
    obtain ⟨q', hq', rfl | rfl⟩ := Heap.payload_update_kept r (Payload.addLocal name x) hvalue <;>
      exact ⟨value, hq'⟩
  refine ⟨fun n y hb => hvar ?_, fun s hs => ?_⟩
  · rcases Heap.bound_addLocal hb with hold | ⟨-, rfl⟩
    · exact h.vars n y hold
    · exact hx
  · obtain ⟨m, hm⟩ : v.heap.IsModule s := by
      cases hs with
      | frame hmem hmodule => exact h.scopes s (.frame hmem hmodule)
      | table hfound => exact h.scopes s (.table hfound)
      | @method y m hm hmodule =>
        obtain ⟨p, hp, hcases⟩ := Heap.payload_update_cases hm
        have hsame : p = .method m := by
          rcases hcases with heq | heq
          · exact heq.symm
          · cases p with
            | module d => cases heq
            | _ => exact heq.symm
        exact h.scopes s (.method (hsame ▸ hp) hmodule)
    obtain ⟨q', hq', rfl | rfl⟩ := Heap.payload_update_kept r (Payload.addLocal name x) hm <;>
      exact ⟨_, hq'⟩

end Vm.Neat

namespace Vm.KeepsNames

variable {v₀ v v' v'' : Vm} {r x : Ref} {p : Payload}

theorem refl (hv : v.Neat) : v.KeepsNames v where
  neat := hv
  kept _ _ _ hb := hb
  single name _ x hx hb _ := by
    rw [(hv.vars name x hb).contains] at hx
    cases hx

theorem trans (h : v.KeepsNames v') (h' : v'.KeepsNames v'')
    (hlive : ∀ x, v.heap.contains x = true → v'.heap.contains x = true) : v.KeepsNames v'' where
  neat := h'.neat
  kept name x hx hb := h.kept name x hx (h'.kept name x (hlive x hx) hb)
  single name other x hx hb hb' := by
    cases hnew : v'.heap.contains x with
    | true => exact h.single name other x hx (h'.kept name x hnew hb) (h'.kept other x hnew hb')
    | false => exact h'.single name other x hnew hb hb'

/-- Nothing changes in the heap, and what is newly taken for a module is one. -/
theorem of_scopes (h : v₀.KeepsNames v) (hheap : v'.heap = v.heap)
    (hscopes : ∀ r, v'.Scope r → v.Scope r ∨ v.heap.IsModule r) : v₀.KeepsNames v' where
  neat := by
    refine ⟨fun name x hb => ?_, fun r hr => ?_⟩
    · rw [hheap] at hb ⊢
      exact h.neat.vars name x hb
    · rw [hheap]
      exact (hscopes r hr).elim (h.neat.scopes r) id
  kept name x hx hb := h.kept name x hx (hheap ▸ hb)
  single name other x hx hb hb' := h.single name other x hx (hheap ▸ hb) (hheap ▸ hb')

theorem place (h : v₀.KeepsNames v) (hf : v.heap.FreeList) (k : Ref) (hp : v₀.Suits v p) :
    v₀.KeepsNames { v with heap := (v.heap.place ⟨k, p⟩).2 } := by
  -- which objects bind a variable that is new since `v₀`
  have hcases : ∀ {name x}, (v.heap.place ⟨k, p⟩).2.Bound name x →
      v.heap.Bound name x ∨ p.Binds name x ∧ v₀.Loose v x ∧
        ∀ other, p.Binds other x → other = name := fun {name x} hb => by
    rcases Heap.binds_place hf hb with hold | hnew
    · exact .inl hold
    · exact (hp.binds name x hnew).imp_right fun hloose => ⟨hnew, hloose⟩
  refine ⟨h.neat.place hf k (fun name x hnew => ?_) hp.scope, fun name x hx hb => ?_,
    fun name other x hx hb hb' => ?_⟩
  · exact (hp.binds name x hnew).elim (h.neat.vars name x) fun hloose => hloose.1.var
  · rcases hcases hb with hold | ⟨-, hloose, -⟩
    · exact h.kept name x hx hold
    · rw [hloose.fresh] at hx
      cases hx
  · rcases hcases hb with hold | ⟨-, hloose, hone⟩
    · rcases hcases hb' with hold' | ⟨-, hloose', -⟩
      · exact h.single name other x hx hold hold'
      · exact absurd hold (hloose'.unbound name)
    · rcases hcases hb' with hold' | ⟨hbinds', -, -⟩
      · exact absurd hold' (hloose.unbound other)
      · exact (hone other hbinds').symm

/-- Other contents that give no variable another name. -/
theorem update (h : v₀.KeepsNames v) (hf : v.heap.FreeList) (r : Ref) {f : Payload → Payload}
    (hbecomes : ∀ p : Payload, p.Becomes True (f p))
    (hbinds : ∀ (p : Payload) name x, (f p).Binds name x → p.Binds name x) :
    v₀.KeepsNames { v with heap := v.heap.update r f } := by
  have hevolves : v.heap.Evolves (fun _ => True) (v.heap.update r f) :=
    .update hf r f fun _ o _ _ => hbecomes o.payload
  have hback : ∀ {name x}, (v.heap.update r f).Bound name x → v.heap.Bound name x := by
    rintro name x ⟨s, q, hq, hqx⟩
    obtain ⟨p, hp, rfl | rfl⟩ := Heap.payload_update_cases hq
    · exact ⟨s, q, hp, hqx⟩
    · exact ⟨s, p, hp, hbinds p name x hqx⟩
  refine ⟨⟨fun name x hb => hevolves.isVar (h.neat.vars name x (hback hb)), fun s hs => ?_⟩,
    fun name x hx hb => h.kept name x hx (hback hb),
    fun name other x hx hb hb' => h.single name other x hx (hback hb) (hback hb')⟩
  apply hevolves.isModule
  cases hs with
  | frame hmem hmodule => exact h.neat.scopes s (.frame hmem hmodule)
  | table hfound => exact h.neat.scopes s (.table hfound)
  | @method x m hm hmodule =>
    obtain ⟨p, hp, hcases⟩ := Heap.payload_update_cases hm
    have hsame : p = .method m := by
      rcases hcases with heq | heq
      · exact heq.symm
      · have hb := hbecomes p
        rw [← heq] at hb
        cases hb with
        | same => rfl
    exact h.neat.scopes s (.method (hsame ▸ hp) hmodule)

/-- A loose variable becomes a name of a module. -/
theorem addLocal (h : v₀.KeepsNames v) (r : Ref) (name : String) (hx : v₀.Loose v x) :
    v₀.KeepsNames { v with heap := v.heap.update r (Payload.addLocal name x) } := by
  refine ⟨h.neat.addLocal r name hx.var, fun n y hy hb => ?_, fun n n' y hy hb hb' => ?_⟩
  · rcases Heap.bound_addLocal hb with hold | ⟨-, rfl⟩
    · exact h.kept n y hy hold
    · rw [hx.fresh] at hy
      cases hy
  · rcases Heap.bound_addLocal hb with hold | ⟨hn, heq⟩
    · rcases Heap.bound_addLocal hb' with hold' | ⟨-, rfl⟩
      · exact h.single n n' y hy hold hold'
      · exact absurd hold (hx.unbound n)
    · rcases Heap.bound_addLocal hb' with hold' | ⟨hn', -⟩
      · rw [heq] at hold'
        exact absurd hold' (hx.unbound n')
      · exact hn.trans hn'.symm

end Vm.KeepsNames

/-! ## Variables without a name -/

namespace Vm.Loose

variable {v₀ v v' : Vm} {x : Ref}

theorem keep (hx : v₀.Loose v x) (h : v.KeepsNames v') {A : Ref → Prop}
    (he : v.heap.Evolves A v'.heap) : v₀.Loose v' x where
  var := he.isVar hx.var
  fresh := hx.fresh
  unbound name hb := hx.unbound name (h.kept name x hx.var.contains hb)

/-- A variable that was just made. -/
theorem of_place (h : v₀.KeepsNames v) (hf : v.heap.FreeList)
    (hlive : ∀ x, v₀.heap.contains x = true → v.heap.contains x = true) (k : Ref)
    (value : Option Ref) :
    v₀.Loose { v with heap := (v.heap.place ⟨k, .var value⟩).2 }
      (v.heap.place ⟨k, .var value⟩).1 where
  var := ⟨value, Heap.payload_place_self hf _⟩
  fresh := Bool.eq_false_iff.mpr fun hc =>
    Bool.eq_false_iff.mp (Heap.place_fresh hf ⟨k, .var value⟩) (hlive _ hc)
  unbound name hb := by
    have hfresh := Heap.place_fresh hf ⟨k, .var value⟩
    rcases Heap.binds_place hf hb with hold | hnew
    · rw [(h.neat.vars name _ hold).contains] at hfresh
      cases hfresh
    · exact hnew

end Vm.Loose

namespace Vm.Gathers

variable {v₀ v v' : Vm} {vars : NameMap Ref} {name : String} {x : Ref}

theorem empty : v₀.Gathers v {} := nofun

theorem keep (hvars : v₀.Gathers v vars) (h : v.KeepsNames v')
    (ht : v.heap.Turns (fun _ => Eq) v'.heap) : v₀.Gathers v' vars := by
  have he : v.heap.Evolves noVar v'.heap := .of_eq ht
  exact fun n y hy => (hvars n y hy).imp ht.binds fun hloose => ⟨hloose.1.keep h he, hloose.2⟩

/-- What is new since a later state is new since an earlier one. -/
theorem since {u : Vm} (hvars : v₀.Gathers v vars)
    (hlive : ∀ x, u.heap.contains x = true → v₀.heap.contains x = true) : u.Gathers v vars := by
  refine fun n y hy => (hvars n y hy).imp_right fun ⟨hloose, hone⟩ => ⟨⟨hloose.var, ?_, ?_⟩, hone⟩
  · exact Bool.eq_false_iff.mpr fun hc => Bool.eq_false_iff.mp hloose.fresh (hlive y hc)
  · exact hloose.unbound

/-- A variable under a name that it has. -/
theorem insert_bound (hvars : v₀.Gathers v vars) (hx : v.heap.Bound name x) :
    v₀.Gathers v (vars.insert name x) := by
  intro n y hy
  by_cases hn : n = name
  · subst hn
    rw [NameMap.find?_insert_self] at hy
    obtain rfl := Option.some.inj hy
    exact .inl hx
  · rw [NameMap.find?_insert_ne hn] at hy
    refine (hvars n y hy).imp_right fun ⟨hloose, hone⟩ => ⟨hloose, fun other hother => ?_⟩
    by_cases ho : other = name
    · subst ho
      rw [NameMap.find?_insert_self] at hother
      obtain rfl := Option.some.inj hother
      exact absurd hx (hloose.unbound other)
    · exact hone other ((NameMap.find?_insert_ne ho).symm.trans hother)

/-- A loose variable that is not among the others. -/
theorem insert_loose (hvars : v₀.Gathers v vars) (hx : v₀.Loose v x)
    (hnew : ∀ n, vars.find? n ≠ some x) : v₀.Gathers v (vars.insert name x) := by
  intro n y hy
  by_cases hn : n = name
  · subst hn
    rw [NameMap.find?_insert_self] at hy
    obtain rfl := Option.some.inj hy
    refine .inr ⟨hx, fun other hother => ?_⟩
    by_contra ho
    exact hnew other ((NameMap.find?_insert_ne ho).symm.trans hother)
  · rw [NameMap.find?_insert_ne hn] at hy
    refine (hvars n y hy).imp_right fun ⟨hloose, hone⟩ => ⟨hloose, fun other hother => ?_⟩
    by_cases ho : other = name
    · subst ho
      rw [NameMap.find?_insert_self] at hother
      obtain rfl := Option.some.inj hother
      exact absurd hy (hnew n)
    · exact hone other ((NameMap.find?_insert_ne ho).symm.trans hother)

/-- All of them are variables. -/
theorem isVar (hvars : v₀.Gathers v vars) (hv : v.Neat) (hx : vars.find? name = some x) :
    v.heap.IsVar x :=
  (hvars name x hx).elim (hv.vars name x) fun hloose => hloose.1.var

end Vm.Gathers

namespace Vm.Suits

variable {v₀ v : Vm} {p : Payload}

/-- Contents without names. -/
theorem of_nameless (hbinds : ∀ name x, ¬ p.Binds name x) (hmethod : ∀ m, p ≠ .method m) :
    v₀.Suits v p :=
  ⟨fun name x hb => absurd hb (hbinds name x), fun m _ hm => absurd hm (hmethod m)⟩

theorem method {m : Method} (hvars : v₀.Gathers v m.body.bindings)
    (hmodule : ∀ r, m.body.module? = some r → v.heap.IsModule r) : v₀.Suits v (.method m) := by
  refine ⟨hvars, ?_⟩
  rintro _ r ⟨⟩
  exact hmodule r

end Vm.Suits

end ObjectMachine
