import ObjectMachine.Machine.Instruction
import ObjectMachine.Proofs.Renaming.Calls

/-!
# ObjectMachine.Proofs.Renaming.Instructions

Instructions do the same in related states.

* `Flow.Related` — execution goes on in the same way.
* `Observes.peek`, `Respects.replace`, … — the operand stack.
* `Respects.loadName`, `Respects.storeName` — names.
* `Respects.execute`, `Respects.perform` — instructions.
* `Respects.returnFrom` — returning from a frame.
-/

namespace ObjectMachine

variable {ρ : Renaming} {r s : Ref}

inductive Flow.Related (ρ : Renaming) : Flow → Flow → Prop where
  | next : Flow.Related ρ .next .next
  | leave {r s : Ref} : ρ r s → Flow.Related ρ (.leave r) (.leave s)
  | call {r s : Ref} {args args' : List Ref} {n : Nat} :
      ρ r s → List.Forall₂ ρ args args' → Flow.Related ρ (.call r args n) (.call s args' n)
  | wait (request : Request) (n : Nat) : Flow.Related ρ (.wait request n) (.wait request n)

/-! ## The operand stack -/

namespace Observes

theorem top : Observes ρ Vm.top Vm.top (ActiveFrame.Related ρ) := by
  unfold Vm.top
  refine get_bind fun v w hvw => ?_
  have hlast : Option.Rel (ActiveFrame.Related ρ) v.frames.back? w.frames.back? := by
    rw [← Array.getLast?_toList, ← Array.getLast?_toList]
    exact forall₂_getLast? hvw.frames
  generalize v.frames.back? = x, w.frames.back? = y at hlast ⊢
  cases hlast with
  | some h => exact return_ h
  | none => exact fatal rfl

theorem need (n : Nat) : Observes ρ (Vm.need n) (Vm.need n) Eq := by
  unfold Vm.need
  refine top.bind fun f g hfg => get_bind fun v w hvw => ?_
  rw [hvw.stack_size, hfg.base, hfg.unit, hfg.ip]
  split
  · exact fatal rfl
  · exact return_ rfl

theorem below (n : Nat) : Observes ρ (Vm.below n) (Vm.below n) Eq := by
  unfold Vm.below
  refine get_bind fun v w hvw => ?_
  rw [hvw.stack_size]
  dsimp only
  split
  · exact return_ rfl
  · exact fatal rfl

theorem peek (n : Nat) : Observes ρ (Vm.peek n) (Vm.peek n) ρ := by
  unfold Vm.peek
  refine (need (n + 1)).bindEq fun _ => (below (n + 1)).bindEq fun height => ?_
  refine get_bind fun v w hvw => ?_
  have hat := forall₂_getElem? hvw.stack height
  rw [Array.getElem?_toList, Array.getElem?_toList] at hat
  rw [hvw.stack_size]
  generalize v.stack[height]? = x, w.stack[height]? = y at hat ⊢
  cases hat with
  | some h => exact return_ h
  | none => exact fatal rfl

theorem peekMany (n : Nat) :
    Observes ρ (Vm.peekMany n) (Vm.peekMany n) (List.Forall₂ ρ) := by
  unfold Vm.peekMany
  refine (need n).bindEq fun _ => (below n).bindEq fun height => ?_
  refine get_bind fun v w hvw => return_ ?_
  rw [hvw.stack_size, Array.toList_extract, Array.toList_extract]
  unfold List.extract
  exact List.forall₂_take _ (List.forall₂_drop _ hvw.stack)

end Observes

namespace Respects

theorem push (hrs : ρ r s) : Respects ρ (Vm.push r) (Vm.push s) Anything := by
  refine changing (fun v w hvw => { hvw with stack := ?_ }) fun _ => .of_eq rfl rfl
  rw [Array.toList_push, Array.toList_push]
  exact List.rel_append hvw.stack (.cons hrs .nil)

theorem drop (n : Nat) : Respects ρ (Vm.drop n) (Vm.drop n) Anything := by
  unfold Vm.drop
  refine (Observes.below n).andEq fun height => ?_
  refine changing (fun v w hvw => { hvw with stack := ?_ }) fun _ => .of_eq rfl rfl
  rw [Array.toList_shrink, Array.toList_shrink]
  exact List.forall₂_take _ hvw.stack

theorem pop : Respects ρ Vm.pop Vm.pop Renamed := by
  unfold Vm.pop
  refine (Observes.peek 0).andThen fun x y hxy => ?_
  exact (drop 1).bind fun σ hσ _ _ _ => return_ (hσ _ _ hxy)

theorem replace (n : Nat) (hrs : ρ r s) : Respects ρ (Vm.replace n r) (Vm.replace n s) Anything := by
  unfold Vm.replace
  exact (drop n).bind fun σ hσ _ _ _ => push (hσ _ _ hrs)

theorem goto (addr : Nat) : Respects ρ (Vm.goto addr) (Vm.goto addr) Anything := by
  refine changing (fun v w hvw => { hvw with frames := ?_ }) fun _ => .of_eq rfl rfl
  rw [Array.toList_modify, Array.toList_modify, hvw.frames_size]
  exact forall₂_modify (f := fun f => { f with ip := addr }) (g := fun f => { f with ip := addr })
    hvw.frames (fun _ _ h => { h with ip := rfl }) _

end Respects

/-! ## Names and constants -/

namespace Observes

theorem constant (index : UInt8) : Observes ρ (Vm.constant index) (Vm.constant index) ρ := by
  unfold Vm.constant
  refine top.bind fun f g hfg => (payload hfg.code).bind fun p q hpq => ?_
  rw [hfg.unit]
  cases hpq with
  | @code c d h =>
    have hat := forall₂_getElem? h.consts index.toNat
    rw [Array.getElem?_toList, Array.getElem?_toList] at hat
    dsimp only
    generalize c.consts[index.toNat]? = x, d.consts[index.toNat]? = y at hat ⊢
    cases hat with
    | some h => exact return_ h
    | none => exact fatal rfl
  | _ => exact fatal rfl

theorem nameAt (index : UInt8) : Observes ρ (Vm.nameAt index) (Vm.nameAt index) Eq := by
  unfold Vm.nameAt
  refine top.bind fun f g hfg => ?_
  rw [hfg.unit]
  split
  · exact return_ rfl
  · exact fatal rfl

theorem frameVar? (hrs : ρ r s) (name : String) :
    Observes ρ (Vm.frameVar? r name) (Vm.frameVar? s name) (Option.Rel ρ) := by
  unfold Vm.frameVar?
  refine (payload hrs).bind fun p q hpq => ?_
  cases hpq with
  | @frame f g h =>
    refine return_ ?_
    have hlocal := h.locals.find? name
    unfold Frame.var?
    generalize f.locals.find? name = x, g.locals.find? name = y at hlocal ⊢
    cases hlocal with
    | some h => exact .some h
    | none => exact h.free.find? name
  | _ => exact return_ .none

theorem moduleVar? {module module' : Option Ref} (h : Option.Rel ρ module module') (name : String) :
    Observes ρ (Vm.moduleVar? module name) (Vm.moduleVar? module' name) (Option.Rel ρ) := by
  unfold Vm.moduleVar?
  cases h with
  | none => exact return_ .none
  | some hrs =>
    refine (payload hrs).bind fun p q hpq => ?_
    cases hpq with
    | module hm => exact return_ (hm.locals.find? name)
    | _ => exact return_ .none

theorem scopedVar? (name : String) :
    Observes ρ (Vm.scopedVar? name) (Vm.scopedVar? name) (Option.Rel ρ) := by
  unfold Vm.scopedVar?
  refine top.bind fun f g hfg => (frameVar? hfg.frame name).bind fun x y hxy => ?_
  cases hxy with
  | some h => exact return_ (.some h)
  | none => exact moduleVar? hfg.module name

theorem loadName (name : String) : Observes ρ (Vm.loadName name) (Vm.loadName name) ρ := by
  unfold Vm.loadName
  refine (scopedVar? name).bind fun x y hxy => ?_
  cases hxy with
  | some h =>
    refine (readVar h).bind fun a b hab => ?_
    cases hab with
    | some h => exact return_ h
    | none => exact raise nofun
  | none =>
    refine get_bind fun v w hvw => ?_
    have hglobal := hvw.globals.find? name
    have hclass := hvw.classes.find? name
    generalize v.globals.find? name = x, w.globals.find? name = y at hglobal ⊢
    generalize v.classes.find? name = a, w.classes.find? name = b at hclass ⊢
    cases hglobal with
    | some h => exact return_ h
    | none =>
      cases hclass with
      | some h => exact return_ h
      | none => exact raise nofun

theorem captureVars (names : List String) {vars vars' : NameMap Ref} (h : vars.Related ρ vars') :
    Observes ρ (Vm.captureVars names vars) (Vm.captureVars names vars') (NameMap.Related ρ) := by
  induction names generalizing vars vars' with
  | nil => exact return_ h
  | cons name rest ih =>
    unfold Vm.captureVars
    refine (scopedVar? name).bind fun x y hxy => ?_
    cases hxy with
    | some hxy => exact ih (h.insert name hxy)
    | none => exact raise nofun

end Observes

namespace Respects

theorem storeName (name : String) (hrs : ρ r s) :
    Respects ρ (Vm.storeName name r) (Vm.storeName name s) Anything := by
  unfold Vm.storeName
  refine (Observes.scopedVar? name).andThen fun x y hxy => ?_
  cases hxy with
  | some h => exact writeVar h hrs
  | none =>
    refine Observes.top.andThen fun f g hfg => ?_
    have hmodule := hfg.module
    generalize f.module = m, g.module = n at hmodule ⊢
    cases hmodule with
    | none => exact setGlobal name hrs
    | some hmn =>
      refine (newVar (.some hrs)).bind fun σ hσ a b hab => ?_
      have hmn' := hσ _ _ hmn
      exact (Observes.payload hmn').andThen fun _ _ _ => addLocal hmn' name hab

theorem makeClosure (hrs : ρ r s) : Respects ρ (Vm.makeClosure r) (Vm.makeClosure s) Renamed := by
  unfold Vm.makeClosure
  refine (Observes.codeUnit hrs).andEq fun unit => Observes.top.andThen fun f g hfg => ?_
  refine (Observes.captureVars unit.freevars .empty).andThen fun vars vars' hvars => ?_
  exact newMethod unit.name (.closure hrs hfg.module hvars) .none

theorem fillHash (hrs : ρ r s) {items items' : List Ref} (h : List.Forall₂ ρ items items') :
    Respects ρ (Vm.fillHash r items) (Vm.fillHash s items') Anything := by
  induction items using Vm.fillHash.induct generalizing ρ items' with
  | case1 k v rest ih =>
    rcases h with _ | ⟨hk, _ | ⟨hv, h⟩⟩
    unfold Vm.fillHash
    refine (hashSet hrs hk hv).bind fun σ hσ _ _ _ => ?_
    exact ih (hσ _ _ hrs) (List.Forall₂.imp hσ h)
  | case2 items hne =>
    rcases h with _ | ⟨_, _ | ⟨_, _⟩⟩
    · exact return_ trivial
    · exact return_ trivial
    · exact absurd rfl (hne _ _ _)

/-! ## Instructions -/

/-- An action whose answer is an operand. -/
theorem thenPush {a b : Action Ref} (h : Respects ρ a b Renamed) :
    Respects ρ (a >>= fun r => Vm.push r >>= fun _ => pure .next)
      (b >>= fun r => Vm.push r >>= fun _ => pure .next) Flow.Related :=
  h.bind fun _ _ _ _ hxy => (push hxy).bind fun _ _ _ _ _ => return_ .next

/-- An action whose answer takes the place of operands. -/
theorem thenReplace {a b : Action Ref} (n : Nat) (h : Respects ρ a b Renamed) :
    Respects ρ (a >>= fun r => Vm.replace n r >>= fun _ => pure .next)
      (b >>= fun r => Vm.replace n r >>= fun _ => pure .next) Flow.Related :=
  h.bind fun _ _ _ _ hxy => (replace n hxy).bind fun _ _ _ _ _ => return_ .next

theorem executeArith (op : Arith) :
    Respects ρ (Vm.executeArith op) (Vm.executeArith op) Flow.Related := by
  unfold Vm.executeArith
  refine (Observes.peek 1).andThen fun a a' ha => (Observes.peek 0).andThen fun b b' hb => ?_
  exact thenReplace 2 (binary op ha hb)

theorem execute (op : Op) (i : Instr) :
    Respects ρ (Vm.execute op i) (Vm.execute op i) Flow.Related := by
  unfold Vm.execute
  cases op with
  | pushConst => exact thenPush (Observes.constant _).respects
  | pushName => exact (Observes.nameAt _).andEq fun name => thenPush (Observes.loadName name).respects
  | storeName =>
    refine pop.bind fun σ hσ x y hxy => (Observes.nameAt _).andEq fun name => ?_
    exact (storeName name hxy).bind fun _ _ _ _ _ => return_ .next
  | pushNil => exact thenPush Observes.nil.respects
  | dup => exact thenPush (Observes.peek 0).respects
  | pop => exact pop.bind fun _ _ _ _ _ => return_ .next
  | jump => exact (goto _).bind fun _ _ _ _ _ => return_ .next
  | jumpIfTrue =>
    refine pop.bind fun σ hσ x y hxy => (Observes.truthy hxy).andEq fun b => ?_
    cases b with
    | true => exact (goto _).bind fun _ _ _ _ _ => return_ .next
    | false => exact return_ .next
  | jumpIfFalse =>
    refine pop.bind fun σ hσ x y hxy => (Observes.truthy hxy).andEq fun b => ?_
    cases b with
    | true => exact return_ .next
    | false => exact (goto _).bind fun _ _ _ _ _ => return_ .next
  | ret => exact pop.bind fun _ _ _ _ hxy => return_ (.leave hxy)
  | makeArray =>
    refine (Observes.peekMany _).andThen fun xs ys hxys => ?_
    refine (drop _).bind fun σ hσ _ _ _ => ?_
    exact thenPush (newArray (List.Forall₂.imp hσ hxys))
  | makeHash =>
    refine (Observes.peekMany _).andThen fun xs ys hxys => ?_
    refine newHash.bind fun σ hσ a b hab => ?_
    refine (fillHash hab (List.Forall₂.imp hσ hxys)).bind fun τ hτ _ _ _ => ?_
    exact (replace _ (hτ _ _ hab)).bind fun _ _ _ _ _ => return_ .next
  | makeClosure => exact (Observes.constant _).andThen fun x y hxy => thenPush (makeClosure hxy)
  | getAttr =>
    refine (Observes.peek 0).andThen fun x y hxy => (Observes.nameAt _).andEq fun name => ?_
    exact thenReplace 1 (getAttr hxy name)
  | getItem =>
    refine (Observes.peek 1).andThen fun x y hxy => (Observes.peek 0).andThen fun a b hab => ?_
    exact thenReplace 2 (getItem hxy hab)
  | call =>
    refine (Observes.peekMany _).andThen fun xs ys hxys => ?_
    cases hxys with
    | nil => exact Leads.fatal rfl
    | cons hf hargs =>
      refine (Observes.isBytecode hf).andEq fun bytecode => ?_
      cases bytecode with
      | false => exact return_ (.call hf hargs)
      | true =>
        refine (drop _).bind fun σ hσ _ _ _ => ?_
        refine (enter (hσ _ _ hf) (List.Forall₂.imp hσ hargs)).bind fun _ _ _ _ _ => ?_
        exact return_ .next
  | getClass =>
    exact pop.bind fun _ _ _ _ hxy => thenPush (Observes.classOf hxy).respects
  | add => exact executeArith .add
  | sub => exact executeArith .sub
  | mul => exact executeArith .mul
  | div => exact executeArith .div
  | eq =>
    refine pop.bind fun σ hσ b b' hb => pop.bind fun τ hτ a a' ha => ?_
    exact (Observes.equals ha (hτ _ _ hb)).andEq fun e => thenPush (Observes.bool _).respects
  | neq =>
    refine pop.bind fun σ hσ b b' hb => pop.bind fun τ hτ a a' ha => ?_
    exact (Observes.equals ha (hτ _ _ hb)).andEq fun e => thenPush (Observes.bool _).respects
  | gt | gte | lt | lte =>
    refine (Observes.peek 1).andThen fun a a' ha => (Observes.peek 0).andThen fun b b' hb => ?_
    exact (Observes.compare ha hb).andEq fun o => thenReplace 2 (Observes.bool _).respects
  | not =>
    refine pop.bind fun σ hσ x y hxy => (Observes.truthy hxy).andEq fun b => ?_
    exact thenPush (Observes.bool _).respects
  | spawn =>
    refine (Observes.peek 0).andThen fun x y hxy => (Observes.requestSpawn hxy).andEq fun q => ?_
    exact return_ (.wait q 1)

theorem fetch : Respects ρ Vm.fetch Vm.fetch Equal := by
  unfold Vm.fetch
  refine Observes.top.andThen fun f g hfg => ?_
  rw [hfg.unit, hfg.ip]
  split
  · exact return_ rfl
  · exact (goto _).bind fun _ _ _ _ _ => return_ rfl

theorem perform : Respects ρ Vm.perform Vm.perform Flow.Related := by
  unfold Vm.perform
  refine fetch.bind fun σ hσ i _ heq => ?_
  obtain rfl : i = _ := heq
  cases i with
  | none => exact Observes.nil.respects.bind fun _ _ _ _ hxy => return_ (.leave hxy)
  | some i =>
    dsimp only
    split
    · exact execute _ i
    · refine Observes.top.andThen fun f g hfg => ?_
      rw [hfg.unit]
      exact Leads.fatal rfl

/-! ## Returning -/

theorem leaveFrame : Respects ρ Vm.leaveFrame Vm.leaveFrame Anything := by
  unfold Vm.leaveFrame
  refine Observes.top.andThen fun f g hfg => ?_
  refine bind (R := Anything) ?_ fun _ _ _ _ _ => trace _ _ _ _
  rw [hfg.base]
  refine changing (fun v w hvw => { hvw with stack := ?_, frames := ?_ }) fun _ =>
    .of_eq rfl rfl
  · rw [Array.toList_shrink, Array.toList_shrink]
    exact List.forall₂_take _ hvw.stack
  · rw [Array.toList_pop, Array.toList_pop]
    exact forall₂_dropLast hvw.frames

theorem returnFrom (floor : Nat) (hrs : ρ r s) :
    Respects ρ (Vm.returnFrom floor r) (Vm.returnFrom floor s) Flow.Related := by
  unfold Vm.returnFrom
  refine leaveFrame.bind fun σ hσ _ _ _ => Leads.get_bind fun v w hvw => ?_
  rw [hvw.frames_size]
  split
  · refine bind (R := Anything) ?_ fun τ hτ _ _ _ => return_ (.leave (hτ _ _ (hσ _ _ hrs)))
    exact changing (fun _ _ h => { h with loops := congrArg (· - 1) h.loops }) fun _ =>
      .of_eq rfl rfl
  · exact (push (hσ _ _ hrs)).bind fun _ _ _ _ _ => return_ .next

theorem performIn (floor : Nat) :
    Respects ρ (Vm.performIn floor) (Vm.performIn floor) Flow.Related := by
  unfold Vm.performIn
  refine perform.bind fun σ _ x y hxy => ?_
  cases hxy with
  | next => exact return_ .next
  | leave hrs => exact returnFrom floor hrs
  | call hrs hargs => exact return_ (.call hrs hargs)
  | wait request n => exact return_ (.wait request n)

end Respects
end ObjectMachine
