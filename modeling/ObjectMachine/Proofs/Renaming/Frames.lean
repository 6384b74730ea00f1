import ObjectMachine.Proofs.Renaming.Making
import ObjectMachine.Vm.Frames

/-!
# ObjectMachine.Proofs.Renaming.Frames

Entering bytecode methods does the same in related states.

* `Observes.callee`, `Observes.isBytecode` — what is needed of a method.
* `Respects.activate` — a frame with its parameters bound.
* `Respects.enter`, `Respects.enterLoop` — pushing it.
-/

namespace ObjectMachine

variable {ρ : Renaming} {r s : Ref}

structure Vm.Callee.Related (ρ : Renaming) (c d : Vm.Callee) : Prop where
  code : ρ c.code d.code
  module : Option.Rel ρ c.module d.module
  receiver : Option.Rel ρ c.receiver d.receiver
  bindings : c.bindings.Related ρ d.bindings

namespace Observes

theorem callee (hrs : ρ r s) :
    Observes ρ (Vm.callee r) (Vm.callee s) (Vm.Callee.Related ρ) := by
  unfold Vm.callee
  refine (payload hrs).bind fun p q hpq => ?_
  cases hpq with
  | @method m n hmn =>
    obtain ⟨name, body, receiver⟩ := m
    obtain ⟨name', body', receiver'⟩ := n
    obtain ⟨rfl, hbody, hrec⟩ := hmn
    cases hbody with
    | native f => exact raise nofun
    | bytecode hc hm => exact return_ ⟨hc, hm, hrec, .empty⟩
    | closure hc hm hb => exact return_ ⟨hc, hm, hrec, hb⟩
  | _ => exact mismatch _ hrs

theorem isBytecode (hrs : ρ r s) : Observes ρ (Vm.isBytecode r) (Vm.isBytecode s) Eq := by
  unfold Vm.isBytecode
  refine (payload hrs).bind fun p q hpq => ?_
  cases hpq with
  | @method m n hmn =>
    obtain ⟨name, body, receiver⟩ := m
    obtain ⟨name', body', receiver'⟩ := n
    obtain ⟨-, hbody, -⟩ := hmn
    cases hbody <;> exact return_ rfl
  | _ => exact return_ rfl

end Observes

theorem Vm.freeVars_related {bindings bindings' locals locals' free free' : NameMap Ref}
    (hb : bindings.Related ρ bindings') (hl : locals.Related ρ locals') (names : List String)
    (hf : free.Related ρ free') :
    (Vm.freeVars bindings locals names free).Related ρ
      (Vm.freeVars bindings' locals' names free') := by
  induction names generalizing free free' with
  | nil => exact hf
  | cons name rest ih =>
    unfold Vm.freeVars
    rw [hl.contains name]
    split
    · exact ih hf
    · have hfound := hb.find? name
      generalize bindings.find? name = x, bindings'.find? name = y at hfound ⊢
      cases hfound with
      | some h => exact ih (hf.insert name h)
      | none => exact ih hf

namespace Respects

theorem makeLocals {bindings bindings' : NameMap Ref} (hb : bindings.Related ρ bindings')
    (names : List String) {locals locals' : NameMap Ref} (hl : locals.Related ρ locals') :
    Respects ρ (Vm.makeLocals bindings names locals) (Vm.makeLocals bindings' names locals')
      NameMap.Related := by
  induction names generalizing ρ locals locals' with
  | nil => exact return_ hl
  | cons name rest ih =>
    have hfound := hb.find? name
    unfold Vm.makeLocals
    generalize bindings.find? name = x, bindings'.find? name = y at hfound ⊢
    cases hfound with
    | some h => exact ih hb (hl.insert name h)
    | none =>
      refine (newVar .none).bind fun σ hσ x y hxy => ?_
      exact ih (hb.mono hσ) ((hl.mono hσ).insert name hxy)

theorem allocFrame (hrs : ρ r s) (unit : CodeUnit) {bindings bindings' : NameMap Ref}
    (hb : bindings.Related ρ bindings') :
    Respects ρ (Vm.allocFrame r unit bindings) (Vm.allocFrame s unit bindings')
      fun σ x y => σ x.1 y.1 ∧ x.2.Related σ y.2 := by
  unfold Vm.allocFrame
  refine (makeLocals hb unit.locals .empty).bind fun σ hσ locals locals' hl => ?_
  have hfree := Vm.freeVars_related (hb.mono hσ) hl unit.freevars .empty
  refine (new (.frame ⟨hσ _ _ hrs, hl, hfree⟩) rfl (by decide)).bind fun τ hτ x y hxy => ?_
  exact return_ ⟨hxy, hl.mono hτ⟩

theorem buildFrame (hrs : ρ r s) : Respects ρ (Vm.buildFrame r) (Vm.buildFrame s) Renamed := by
  unfold Vm.buildFrame
  refine (Observes.callee hrs).andThen fun c d hcd => ?_
  refine (Observes.codeUnit hcd.code).andEq fun unit => ?_
  exact (allocFrame hrs unit hcd.bindings).bind fun σ hσ x y hxy => return_ hxy.1

theorem bindParams {locals locals' : NameMap Ref} (hl : locals.Related ρ locals')
    (names : List String) {values values' : List Ref} (hv : List.Forall₂ ρ values values') :
    Respects ρ (Vm.bindParams locals names values) (Vm.bindParams locals' names values')
      Anything := by
  induction names generalizing ρ values values' with
  | nil =>
    unfold Vm.bindParams
    exact return_ trivial
  | cons name rest ih =>
    cases hv with
    | nil => exact return_ trivial
    | cons hxy hv =>
      have hfound := hl.find? name
      unfold Vm.bindParams
      generalize locals.find? name = x, locals'.find? name = y at hfound ⊢
      cases hfound with
      | none => exact ih hl hv
      | some h =>
        refine (writeVar h hxy).bind fun σ hσ _ _ _ => ?_
        exact ih (hl.mono hσ) (List.Forall₂.imp hσ hv)

theorem activate (hrs : ρ r s) {args args' : List Ref} (hargs : List.Forall₂ ρ args args') :
    Respects ρ (Vm.activate r args) (Vm.activate s args') ActiveFrame.Related := by
  unfold Vm.activate
  refine Leads.get_bind fun v w hvw => ?_
  have hdepth : v.callDepth = w.callDepth := hvw.callDepth
  rw [hdepth, hvw.config.maxFrames, hvw.frames_size]
  split
  · exact Leads.raise nofun
  refine (Observes.callee hrs).andThen fun c d hcd => ?_
  refine (Observes.codeUnit hcd.code).andEq fun unit => ?_
  have hvalues : List.Forall₂ ρ (c.receiver.toList ++ args) (d.receiver.toList ++ args') :=
    List.rel_append (optionRel_toList hcd.receiver) hargs
  dsimp only
  rw [hvalues.length_eq]
  split
  · exact Leads.raise nofun
  refine (allocFrame hrs unit hcd.bindings).bind fun σ hσ x y hxy => ?_
  obtain ⟨frame, locals⟩ := x
  obtain ⟨frame', locals'⟩ := y
  refine (bindParams hxy.2 unit.params (List.Forall₂.imp hσ hvalues)).bind fun τ hτ _ _ _ => ?_
  refine (trace _ _ _ _).bind fun υ hυ _ _ _ => return_ ?_
  have hle : ρ ≤ υ := hσ.trans (hτ.trans hυ)
  exact ⟨hυ _ _ (hτ _ _ hxy.1), hle _ _ hrs, hle _ _ hcd.code,
    optionRel_imp hcd.module fun _ _ _ _ => hle _ _, rfl, rfl, rfl⟩

theorem pushFrame {f g : ActiveFrame} (h : f.Related ρ g) :
    Respects ρ
      (modify fun vm => { vm with frames := vm.frames.push { f with base := vm.stack.size } })
      (modify fun vm => { vm with frames := vm.frames.push { g with base := vm.stack.size } })
      Anything := by
  refine changing (fun v w hvw => { hvw with frames := ?_ }) fun _ => .of_eq rfl rfl
  rw [Array.toList_push, Array.toList_push]
  exact List.rel_append hvw.frames (.cons { h with base := hvw.stack_size } .nil)

theorem enter (hrs : ρ r s) {args args' : List Ref} (hargs : List.Forall₂ ρ args args') :
    Respects ρ (Vm.enter r args) (Vm.enter s args') Anything := by
  unfold Vm.enter
  exact (activate hrs hargs).bind fun σ hσ f g hfg => pushFrame hfg

theorem enterLoop (hrs : ρ r s) {args args' : List Ref} (hargs : List.Forall₂ ρ args args') :
    Respects ρ (Vm.enterLoop r args) (Vm.enterLoop s args') Equal := by
  unfold Vm.enterLoop
  refine Leads.get_bind fun v w hvw => ?_
  rw [hvw.loops, hvw.config.maxNativeDepth, hvw.frames_size, hvw.stack_size]
  split
  · exact Leads.raise nofun
  refine (enter hrs hargs).bind fun σ hσ _ _ _ => ?_
  refine bind (R := Anything) ?_ fun τ hτ _ _ _ => return_ rfl
  exact changing (fun _ _ h => { h with loops := congrArg (· + 1) h.loops }) fun _ =>
    .of_eq rfl rfl

end Respects
end ObjectMachine
