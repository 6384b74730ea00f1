import ObjectMachine.Proofs.Scopes.Actions
import ObjectMachine.Proofs.Scopes.Reads

/-!
# ObjectMachine.Proofs.Scopes.Names

What a name stands for in the running frame, and what a store to it changes.

* `Heap.Resolves` — the variable that a name stands for: one of the frame, or else one of its
  module.
* `Vm.scopedVar?_eq_some` — what the running code finds is that variable.
* `Vm.captureVars_find?` — a closure captures the variables of the names in the frame it is made in.
* `Vm.storeName_advances` — a store assigns the variable of the name, and no other.
-/

namespace ObjectMachine

open ObjectMachine.Action

/-! ## Variables of names -/

/-- The variable that a name stands for in a frame: one of the frame itself, or else one of its
module. -/
inductive Heap.Resolves (h : Heap) (f : ActiveFrame) (name : String) (v : Ref) : Prop where
  | frame {fr : Frame} : h.payload f.frame = .ok (.frame fr) → fr.var? name = some v →
      Resolves h f name v
  | module {p : Payload} {r : Ref} {m : Module} : h.payload f.frame = .ok p →
      (∀ fr, p = .frame fr → fr.var? name = none) → f.module = some r →
      h.payload r = .ok (.module m) → m.locals.find? name = some v → Resolves h f name v

/-- What a name stands for is bound to it. -/
theorem Heap.Resolves.binds {h : Heap} {f : ActiveFrame} {name : String} {v : Ref}
    (hv : h.Resolves f name v) : h.Bound name v := by
  cases hv with
  | @frame fr hfr hvar =>
    refine ⟨f.frame, .frame fr, hfr, ?_⟩
    unfold Frame.var? at hvar
    cases hlocal : fr.locals.find? name with
    | some x =>
      rw [hlocal] at hvar
      exact .inl (hlocal.trans hvar)
    | none =>
      rw [hlocal] at hvar
      exact .inr hvar
  | module _ _ _ hm hvar => exact ⟨_, _, hm, hvar⟩

/-- Only the frame object and the module matter. -/
theorem Heap.Resolves.of_eq {h : Heap} {f g : ActiveFrame} {name : String} {v : Ref}
    (hv : h.Resolves f name v) (hframe : g.frame = f.frame) (hmodule : g.module = f.module) :
    h.Resolves g name v := by
  cases hv with
  | frame hfr hvar => exact .frame (hframe ▸ hfr) hvar
  | module hp hnone hr hm hvar => exact .module (hframe ▸ hp) hnone (hmodule ▸ hr) hm hvar

/-- In another heap a name stands for the same variable if the frame object and the module are the
same there. -/
theorem Heap.Resolves.of_payload {h h' : Heap} {f : ActiveFrame} {name : String} {v : Ref}
    (hv : h.Resolves f name v)
    (hsame : ∀ r p, r ∈ f.frame :: f.module.toList → h.payload r = .ok p → h'.payload r = .ok p) :
    h'.Resolves f name v := by
  cases hv with
  | frame hfr hvar => exact .frame (hsame _ _ List.mem_cons_self hfr) hvar
  | module hp hnone hr hm hvar =>
    exact .module (hsame _ _ List.mem_cons_self hp) hnone hr (hsame _ _ (by simp [hr]) hm) hvar

namespace Vm

variable {vm vm' : Vm} {name : String}

theorem frameVar?_eq_ok {frame : Ref} {found : Option Ref} :
    frameVar? frame name vm = .ok found vm' ↔
      (∃ p, vm.heap.payload frame = .ok p ∧
        ((∃ fr, p = .frame fr ∧ fr.var? name = found) ∨
          (∀ fr, p ≠ .frame fr) ∧ found = none)) ∧ vm = vm' := by
  unfold frameVar?
  simp only [bind_eq_ok, payload_eq_ok]
  constructor
  · rintro ⟨p, _, ⟨hp, rfl⟩, h⟩
    cases p with
    | frame fr =>
      obtain ⟨rfl, rfl⟩ := pure_eq_ok.mp h
      exact ⟨⟨_, hp, .inl ⟨fr, rfl, rfl⟩⟩, rfl⟩
    | _ =>
      obtain ⟨rfl, rfl⟩ := pure_eq_ok.mp h
      exact ⟨⟨_, hp, .inr ⟨nofun, rfl⟩⟩, rfl⟩
  · rintro ⟨⟨p, hp, ⟨fr, rfl, rfl⟩ | ⟨hne, rfl⟩⟩, rfl⟩
    · exact ⟨_, vm, ⟨hp, rfl⟩, rfl⟩
    · refine ⟨p, vm, ⟨hp, rfl⟩, ?_⟩
      cases p with
      | frame fr => exact absurd rfl (hne fr)
      | _ => rfl

theorem moduleVar?_eq_some {module : Option Ref} {v : Ref} :
    moduleVar? module name vm = .ok (some v) vm' ↔
      (∃ r m, module = some r ∧ vm.heap.payload r = .ok (.module m) ∧
        m.locals.find? name = some v) ∧ vm = vm' := by
  unfold moduleVar?
  cases module with
  | none =>
    simp only [pure_eq_ok]
    constructor
    · rintro ⟨⟨⟩, -⟩
    · rintro ⟨⟨_, _, ⟨⟩, -⟩, -⟩
  | some r =>
    simp only [bind_eq_ok, payload_eq_ok]
    constructor
    · rintro ⟨p, _, ⟨hp, rfl⟩, h⟩
      cases p with
      | module m =>
        obtain ⟨hfound, rfl⟩ := pure_eq_ok.mp h
        exact ⟨⟨r, m, rfl, hp, hfound⟩, rfl⟩
      | _ => cases h
    · rintro ⟨⟨_, m, ⟨⟩, hm, hfound⟩, rfl⟩
      exact ⟨.module m, vm, ⟨hm, rfl⟩, congrArg (EStateM.Result.ok · vm) hfound⟩

/-- What the running code takes for the variable of a name is what the name stands for. -/
theorem scopedVar?_eq_some {v : Ref} :
    scopedVar? name vm = .ok (some v) vm' ↔
      (∃ f, vm.frames.back? = some f ∧ vm.heap.Resolves f name v) ∧ vm = vm' := by
  unfold scopedVar?
  simp only [bind_eq_ok, top_eq_ok, frameVar?_eq_ok]
  constructor
  · rintro ⟨f, _, ⟨hf, rfl⟩, found, _, ⟨⟨p, hp, hcases⟩, rfl⟩, h⟩
    cases found with
    | some w =>
      obtain ⟨⟨⟩, rfl⟩ := pure_eq_ok.mp h
      obtain ⟨fr, rfl, hvar⟩ | ⟨-, ⟨⟩⟩ := hcases
      exact ⟨⟨f, hf, .frame hp hvar⟩, rfl⟩
    | none =>
      obtain ⟨⟨r, m, hr, hm, hfound⟩, rfl⟩ := moduleVar?_eq_some.mp h
      refine ⟨⟨f, hf, .module hp ?_ hr hm hfound⟩, rfl⟩
      rintro fr rfl
      obtain ⟨_, ⟨⟩, hvar⟩ | ⟨hne, -⟩ := hcases
      · exact hvar
      · exact absurd rfl (hne fr)
  · rintro ⟨⟨f, hf, hres⟩, rfl⟩
    cases hres with
    | frame hp hvar =>
      exact ⟨f, vm, ⟨hf, rfl⟩, some v, vm, ⟨⟨_, hp, .inl ⟨_, rfl, hvar⟩⟩, rfl⟩, rfl⟩
    | @module p r m hp hnone hr hm hfound =>
      refine ⟨f, vm, ⟨hf, rfl⟩, none, vm, ⟨⟨p, hp, ?_⟩, rfl⟩,
        moduleVar?_eq_some.mpr ⟨⟨r, m, hr, hm, hfound⟩, rfl⟩⟩
      cases p with
      | frame fr => exact .inl ⟨fr, rfl, hnone fr rfl⟩
      | _ => exact .inr ⟨by rintro _ ⟨⟩, rfl⟩

/-- A name that stands for no variable is new to the module. -/
theorem scopedVar?_none {f : ActiveFrame} {r : Ref} {m : Module}
    (h : scopedVar? name vm = .ok none vm') (hf : vm.frames.back? = some f)
    (hr : f.module = some r) (hm : vm.heap.payload r = .ok (.module m)) :
    m.locals.find? name = none := by
  cases hfound : m.locals.find? name with
  | none => rfl
  | some v =>
    unfold scopedVar? at h
    obtain ⟨g, htop, h⟩ := Reads.bind_eq_ok h
    obtain rfl := Option.some.inj (hf.symm.trans (top_eq_ok.mp htop).1)
    obtain ⟨found, -, h⟩ := Reads.bind_eq_ok h
    cases found with
    | some w => cases h
    | none =>
      have hmodule : moduleVar? f.module name vm = .ok (some v) vm :=
        moduleVar?_eq_some.mpr ⟨⟨r, m, hr, hm, hfound⟩, rfl⟩
      rw [show moduleVar? f.module name vm = .ok none vm' from h] at hmodule
      cases hmodule

/-- Every name that is captured is captured as what it stands for. -/
theorem captureVars_find? {names : List String} {vars bindings : NameMap Ref}
    (h : captureVars names vars vm = .ok bindings vm') :
    ∀ name, name ∈ names ∨ (∃ v, vars.find? name = some v ∧ scopedVar? name vm = .ok (some v) vm) →
      ∃ v, bindings.find? name = some v ∧ scopedVar? name vm = .ok (some v) vm := by
  induction names generalizing vars with
  | nil =>
    obtain ⟨rfl, -⟩ := pure_eq_ok.mp h
    rintro name (hmem | hfound)
    · cases hmem
    · exact hfound
  | cons first rest ih =>
    unfold captureVars at h
    obtain ⟨found, hscope, h⟩ := Reads.bind_eq_ok h
    cases found with
    | none => cases h
    | some v =>
      have hrest := ih h
      intro name hname
      apply hrest
      by_cases heq : name = first
      · subst heq
        exact .inr ⟨v, NameMap.find?_insert_self vars name v, hscope⟩
      · rcases hname with hmem | ⟨w, hw, hw'⟩
        · exact .inl ((List.mem_cons.mp hmem).resolve_left heq)
        · exact .inr ⟨w, (NameMap.find?_insert_ne heq).trans hw, hw'⟩

/-- Whatever is captured is what its name stands for. -/
theorem captureVars_scoped {names : List String} {vars bindings : NameMap Ref}
    (h : captureVars names vars vm = .ok bindings vm') {name : String} {x : Ref}
    (hx : bindings.find? name = some x) :
    vars.find? name = some x ∨ scopedVar? name vm = .ok (some x) vm := by
  induction names generalizing vars with
  | nil =>
    obtain ⟨rfl, -⟩ := pure_eq_ok.mp h
    exact .inl hx
  | cons first rest ih =>
    unfold captureVars at h
    obtain ⟨found, hscope, h⟩ := Reads.bind_eq_ok h
    cases found with
    | none => cases h
    | some var =>
      rcases ih h with hfound | hscoped
      · by_cases heq : name = first
        · subst heq
          rw [NameMap.find?_insert_self] at hfound
          obtain rfl := Option.some.inj hfound
          exact .inr hscope
        · exact .inl ((NameMap.find?_insert_ne heq).symm.trans hfound)
      · exact .inr hscoped

/-- No name is captured twice. -/
theorem captureVars_nodup {names : List String} {vars bindings : NameMap Ref}
    (h : captureVars names vars vm = .ok bindings vm') (hvars : vars.names.Nodup) :
    bindings.names.Nodup := by
  induction names generalizing vars with
  | nil =>
    obtain ⟨rfl, -⟩ := pure_eq_ok.mp h
    exact hvars
  | cons first rest ih =>
    unfold captureVars at h
    obtain ⟨found, -, h⟩ := Reads.bind_eq_ok h
    cases found with
    | none => cases h
    | some v => exact ih h (NameMap.names_insert_nodup hvars)

end Vm

/-! ## Stores -/

/-- Only the variable changes. -/
theorem Heap.Evolves.setValue {A : Ref → Prop} {h : Heap} (hf : h.FreeList) {var : Ref}
    (hvar : h.contains var = true) (hA : A var) (value : Ref) :
    h.Evolves A (h.update var (Payload.setValue value)) := by
  refine .update hf var _ fun x o ho hcell => ?_
  obtain rfl := eq_of_cell_eq hvar (contains_of_get ho) hcell
  exact .setValue hA value o.payload

namespace Vm

variable {vm vm' : Vm}

theorem writeVar_eq_ok {var value : Ref} {u : Unit} (h : writeVar var value vm = .ok u vm') :
    (∃ x, vm.heap.payload var = .ok (.var x)) ∧
      vm' = { vm with heap := vm.heap.update var (Payload.setValue value) } := by
  unfold writeVar at h
  obtain ⟨p, hp, h⟩ := Reads.bind_eq_ok h
  cases p with
  | var x =>
    cases h
    exact ⟨⟨x, (payload_eq_ok.mp hp).1⟩, rfl⟩
  | _ => cases h

theorem writeVar_advances {A : Ref → Prop} {var value : Ref} (hf : vm.heap.FreeList) (hA : A var) :
    vm.Advances A (final (writeVar var value vm)) := by
  unfold writeVar
  refine .bind ?_ fun p vm₁ hp => ?_
  · rw [Reads.state]
    exact .refl hf
  · obtain ⟨hval, rfl⟩ := payload_eq_ok.mp hp
    cases p with
    | var x =>
      obtain ⟨k, hget⟩ := Heap.payload_eq_ok_iff.mp hval
      exact ⟨.setValue hf (Heap.contains_of_get hget) hA value, fun f' hf' => ⟨f', hf', rfl⟩⟩
    | _ => exact .refl hf

/-- A name that stands for nothing is still new to the module when a variable has been made for it,
so the module keeps the variables that it has. -/
theorem addLocal_kept {name : String} {f : ActiveFrame} {r var value : Ref} {p : Payload}
    (hf : vm.heap.FreeList) (hscope : scopedVar? name vm = .ok none vm)
    (hback : vm.frames.back? = some f) (hr : f.module = some r)
    (hrun : newVar (some value) vm = .ok var vm') (hval : vm'.heap.payload r = .ok p) (A : Prop) :
    vm'.heap.Turns (fun _ => Payload.Changes A)
      (vm'.heap.update r (Payload.addLocal name var)) := by
  refine .update (Tame.of_ok hf hrun).heap.freeList (fun _ => .same) r _ fun x o ho hcell => ?_
  obtain rfl := Heap.eq_of_cell_eq (Heap.contains_of_payload hval) (Heap.contains_of_get ho) hcell
  unfold newVar at hrun
  rw [new_eq] at hrun
  cases hrun
  rcases Heap.get_place_cases hf _ ho with ⟨-, rfl⟩ | hbefore
  · exact .same _
  · cases hm : o.payload with
    | module m =>
      have hmodule : vm.heap.payload r = .ok (.module m) :=
        Heap.payload_eq_ok_iff.mpr ⟨o.cls, by rw [hbefore, ← hm]⟩
      exact .name _ (scopedVar?_none hscope hback hr hmodule)
    | _ => exact .same _

/-- A store assigns what the name stands for. If it stands for nothing, the module gets a new
variable. -/
theorem storeName_advances (hf : vm.heap.FreeList) (name : String) (value : Ref) :
    vm.Advances (fun r => scopedVar? name vm = .ok (some r) vm)
      (final (storeName name value vm)) := by
  unfold storeName
  refine .bind ?_ fun found vm₁ hscope => ?_
  · rw [Reads.state]
    exact .refl hf
  obtain rfl := Reads.of_ok hscope
  cases found with
  | some var => exact writeVar_advances hf hscope
  | none =>
    refine .bind ?_ fun f vm₂ htop => ?_
    · rw [Reads.state]
      exact .refl hf
    obtain ⟨hback, rfl⟩ := top_eq_ok.mp htop
    cases hr : f.module with
    | none => exact (Tame.advances (a := setGlobal name value) vm₁ hf).mono fun _ => False.elim
    | some r =>
      refine .bind ((Tame.advances (a := newVar (some value)) vm₁ hf).mono fun _ => False.elim)
        fun var vm₃ hrun => ?_
      have hvar := Tame.of_ok hf hrun
      refine .bind ?_ fun p vm₄ hp => ?_
      · rw [Reads.state]
        exact hvar.mono fun _ => False.elim
      obtain ⟨hval, rfl⟩ := payload_eq_ok.mp hp
      have hadd : vm₃.Advances noVar
          { vm₃ with heap := vm₃.heap.update r (Payload.addLocal name var) } :=
        ⟨(addLocal_kept hf hscope hback hr hrun hval False).mono fun _ _ _ hpq => hpq.becomes,
          fun f' hf' => ⟨f', hf', rfl⟩⟩
      exact (hvar.trans hadd).mono fun _ => False.elim

end Vm

end ObjectMachine
