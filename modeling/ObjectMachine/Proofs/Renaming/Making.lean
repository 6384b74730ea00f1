import ObjectMachine.Proofs.Renaming.Actions

/-!
# ObjectMachine.Proofs.Renaming.Making

Making values, classes, names and modules does the same in related states.

* `Observes.payload`, `Observes.mismatch`, … — looks at objects, and the failures they lead to.
* `Respects.newArray`, `Respects.newMethod`, … — new objects.
* `Respects.hashSet`, `Respects.loadCode`, `Respects.classNew`, `Respects.importModule`, … — one
  lemma for each action.
-/

namespace ObjectMachine

variable {ρ : Renaming} {α β : Type}

/-! ## Looking at objects -/

theorem Action.ofHeap_eq_ok {q : Heap → Except Fatal α} {v : Vm} {x : α}
    (h : Action.ofHeap q v = .ok x v) : q v.heap = .ok x := by
  unfold Action.ofHeap at h
  split at h
  · cases h
    assumption
  · cases h

namespace Observes

variable {r s : Ref} {R : α → β → Prop}

theorem payload (hrs : ρ r s) : Observes ρ (Vm.payload r) (Vm.payload s) (Payload.Related ρ) :=
  ofHeap fun _ _ h => h.payload hrs

theorem className (hrs : ρ r s) : Observes ρ (Vm.className r) (Vm.className s) Eq :=
  ofHeap fun _ _ h => h.className hrs

theorem cls (hrs : ρ r s) :
    Observes ρ (Action.ofHeap fun h => h.cls r) (Action.ofHeap fun h => h.cls s)
      (Class.Related ρ) :=
  ofHeap fun _ _ h => h.cls hrs

theorem mismatch (expected : String) (hrs : ρ r s) :
    Observes ρ (Vm.mismatch expected r : Action α) (Vm.mismatch expected s : Action β) R := by
  unfold Vm.mismatch
  refine (className hrs).bindEq fun c => ?_
  exact raise nofun

theorem nil : Observes ρ Vm.nil Vm.nil ρ :=
  reading fun _ _ h => h.heap.nil

theorem bool (b : Bool) : Observes ρ (Vm.bool b) (Vm.bool b) ρ :=
  reading fun _ _ h => h.heap.bool b

theorem codeUnit (hrs : ρ r s) : Observes ρ (Vm.codeUnit r) (Vm.codeUnit s) Eq := by
  unfold Vm.codeUnit
  refine (payload hrs).bind fun p q hpq => ?_
  cases hpq with
  | code hc => exact return_ hc.unit
  | _ => exact fails (.fatal (.wrongKind hrs))

theorem readVar (hrs : ρ r s) : Observes ρ (Vm.readVar r) (Vm.readVar s) (Option.Rel ρ) := by
  unfold Vm.readVar
  refine (payload hrs).bind fun p q hpq => ?_
  cases hpq with
  | var hv => exact return_ hv
  | _ => exact fails (.fatal (.wrongKind hrs))

end Observes

theorem Leads.mismatch {r s : Ref} {R : Renaming → Vm → α → β → Prop} (expected : String)
    (hrs : ρ r s) :
    Leads ρ (Vm.mismatch expected r : Action α) (Vm.mismatch expected s : Action β) R := by
  unfold Vm.mismatch
  exact (Observes.className hrs).andEq fun c => raise nofun

/-- Frames that run the same code at the same places have the same trace. -/
theorem Vm.Related.backtrace {v w : Vm} (h : v.Related ρ w) : v.backtrace = w.backtrace := by
  unfold Vm.backtrace
  have hrev := List.rel_reverse h.frames
  generalize v.frames.toList.reverse = fs, w.frames.toList.reverse = gs at hrev ⊢
  induction hrev with
  | nil => rfl
  | cons hfg _ ih => rw [List.map_cons, List.map_cons, ih, hfg.unit, hfg.ip]

/-- An object is the receiver of a method. -/
def Heap.Binds (h : Heap) (m obj : Ref) : Prop :=
  ∃ k n, h.get m = .ok ⟨k, .method n⟩ ∧ n.receiver = some obj

/-- A bound method holds its receiver. -/
theorem Leads.bindMethod {r s x y : Ref} (hrs : ρ r s) (hxy : ρ x y) :
    Leads ρ (Vm.bind r x) (Vm.bind s y) fun σ v m n => σ m n ∧ v.heap.Binds m x := by
  unfold Vm.bind
  refine (Observes.payload hrs).andThen fun p q hpq v w hvw => ?_
  cases hpq with
  | @method m n hm =>
    have hbound : Method.Related ρ { m with receiver := some x } { n with receiver := some y } :=
      ⟨hm.name, hm.body, .some hxy⟩
    refine (Leads.new (.method hbound) rfl (by decide) v w hvw).mono ?_
    exact fun σ v' m n hR => ⟨hR.1, hR.2.imp fun k hk => ⟨_, hk, rfl⟩⟩
  | _ => exact Leads.fails (.fatal (.bindsNoMethod hrs)) v w hvw

namespace Respects

variable {r s : Ref}

/-! ## New objects -/

theorem newInt (i : Int64) : Respects ρ (Vm.newInt i) (Vm.newInt i) Renamed :=
  new (.int i) rfl (by decide)

theorem newFloat (x : Float) : Respects ρ (Vm.newFloat x) (Vm.newFloat x) Renamed :=
  new (.float x) rfl (by decide)

theorem newBytes (b : ByteArray) : Respects ρ (Vm.newBytes b) (Vm.newBytes b) Renamed :=
  new (.str b) rfl (by decide)

theorem newStr (text : String) : Respects ρ (Vm.newStr text) (Vm.newStr text) Renamed :=
  newBytes _

theorem newLength (n : Nat) : Respects ρ (Vm.newLength n) (Vm.newLength n) Renamed :=
  newInt _

theorem newArray {items items' : List Ref} (h : List.Forall₂ ρ items items') :
    Respects ρ (Vm.newArray items) (Vm.newArray items') Renamed :=
  new (.array h) rfl (by decide)

theorem newHash : Respects ρ Vm.newHash Vm.newHash Renamed :=
  new (.hash .nil) rfl (by decide)

theorem newVar {value value' : Option Ref} (h : Option.Rel ρ value value') :
    Respects ρ (Vm.newVar value) (Vm.newVar value') Renamed :=
  new (.var h) rfl (by decide)

theorem newStrs (texts : List String) :
    Respects ρ (Vm.newStrs texts) (Vm.newStrs texts) fun σ => List.Forall₂ σ := by
  induction texts generalizing ρ with
  | nil => exact return_ .nil
  | cons text rest ih =>
    unfold Vm.newStrs
    refine (newStr text).bind fun σ hσ x y hxy => ?_
    exact ih.bind fun τ hτ xs ys hxys => return_ (.cons (hτ _ _ hxy) hxys)

theorem allocError (message : String) {cause cause' : Option Ref} (h : Option.Rel ρ cause cause')
    (lines : List String) :
    Respects ρ (Vm.allocError message cause lines) (Vm.allocError message cause' lines) Renamed :=
  new (.error ⟨rfl, h, rfl⟩) rfl (by decide)

theorem newError (message : String) {cause cause' : Option Ref} (h : Option.Rel ρ cause cause') :
    Respects ρ (Vm.newError message cause) (Vm.newError message cause') Renamed := by
  intro v w hvw
  unfold Vm.newError
  rw [hvw.backtrace]
  exact allocError message h _ v w hvw

theorem newMethod (name : String) {body body' : Body} (hb : body.Related ρ body')
    {receiver receiver' : Option Ref} (hr : Option.Rel ρ receiver receiver') :
    Respects ρ (Vm.newMethod name body receiver) (Vm.newMethod name body' receiver') Renamed :=
  new (.method ⟨rfl, hb, hr⟩) rfl (by decide)

theorem newNative (name : String) (f : Native) :
    Respects ρ (Vm.newNative name f) (Vm.newNative name f) Renamed :=
  newMethod name (.native f) .none

theorem bindMethod (hrs : ρ r s) {x y : Ref} (hxy : ρ x y) :
    Respects ρ (Vm.bind r x) (Vm.bind s y) Renamed :=
  fun v w hvw => (Leads.bindMethod hrs hxy v w hvw).mono fun _ _ _ _ hR => hR.1

theorem newTask (t : TaskId) : Respects ρ (Vm.newTask t) (Vm.newTask t) Renamed := by
  intro v w hvw
  unfold Vm.newTask
  rw [hvw.task]
  exact new (.task _) rfl (by decide) v w hvw

theorem currentTask : Respects ρ Vm.currentTask Vm.currentTask Renamed := by
  intro v w hvw
  unfold Vm.currentTask
  rw [hvw.task]
  exact newTask _ v w hvw

mutual

theorem loadCode : ∀ (unit : CodeUnit) {ρ : Renaming},
    Respects ρ (Vm.loadCode unit) (Vm.loadCode unit) Renamed
  | ⟨name, code, consts, names, locals, freevars, arity⟩, ρ => by
    unfold Vm.loadCode
    refine (loadConstants consts).bind fun σ hσ xs ys hxys => ?_
    exact new (.code ⟨rfl, hxys⟩) rfl (by decide)

theorem loadConstant : ∀ (c : Constant) {ρ : Renaming},
    Respects ρ (Vm.loadConstant c) (Vm.loadConstant c) Renamed
  | .nil, ρ => by unfold Vm.loadConstant; exact Observes.nil.respects
  | .int i, ρ => by unfold Vm.loadConstant; exact newInt i
  | .float x, ρ => by unfold Vm.loadConstant; exact newFloat x
  | .str text, ρ => by unfold Vm.loadConstant; exact newStr text
  | .code unit, ρ => by unfold Vm.loadConstant; exact loadCode unit

theorem loadConstants : ∀ (cs : List Constant) {ρ : Renaming},
    Respects ρ (Vm.loadConstants cs) (Vm.loadConstants cs) fun σ => List.Forall₂ σ
  | [], ρ => by unfold Vm.loadConstants; exact return_ .nil
  | c :: rest, ρ => by
    unfold Vm.loadConstants
    refine (loadConstant c).bind fun σ hσ x y hxy => ?_
    exact (loadConstants rest).bind fun τ hτ xs ys hxys => return_ (.cons (hτ _ _ hxy) hxys)

end

theorem newBytecodeMethod (unit : CodeUnit) {module module' : Option Ref}
    (h : Option.Rel ρ module module') :
    Respects ρ (Vm.newBytecodeMethod unit module) (Vm.newBytecodeMethod unit module') Renamed := by
  unfold Vm.newBytecodeMethod
  refine (loadCode unit).bind fun σ hσ x y hxy => ?_
  exact newMethod unit.name (.bytecode hxy (optionRel_imp h fun _ _ _ _ => hσ _ _)) .none

/-! ## Contents -/

theorem hashSet (hrs : ρ r s) {k k' x y : Ref} (hk : ρ k k') (hxy : ρ x y) :
    Respects ρ (Vm.hashSet r k x) (Vm.hashSet s k' y) Anything := by
  unfold Vm.hashSet
  refine (Observes.payload hrs).andThen fun p q hpq => ?_
  cases hpq with
  | @hash t u htu =>
    refine (Observes.ofHeap fun _ _ h => h.position? htu hk).andEq fun found => ?_
    cases found with
    | none => exact setTable hrs (htu.push hk hxy)
    | some i => exact setTable hrs (htu.set i hxy)
  | _ => exact Leads.mismatch _ hrs

theorem writeVar (hrs : ρ r s) {x y : Ref} (hxy : ρ x y) :
    Respects ρ (Vm.writeVar r x) (Vm.writeVar s y) Anything := by
  unfold Vm.writeVar
  refine (Observes.payload hrs).andThen fun p q hpq => ?_
  cases hpq with
  | var hv => exact setValue hrs hxy
  | _ => exact Leads.fails (.fatal (.wrongKind hrs))

theorem defineMethod (hrs : ρ r s) (name : String) {x y : Ref} (hxy : ρ x y) :
    Respects ρ (Vm.defineMethod r name x) (Vm.defineMethod s name y) Anything := by
  unfold Vm.defineMethod
  exact (Observes.cls hrs).andThen fun c d hcd => addMethod hrs name hxy

theorem setGlobal (name : String) {x y : Ref} (hxy : ρ x y) :
    Respects ρ (Vm.setGlobal name x) (Vm.setGlobal name y) Anything :=
  changing (fun _ _ h => { h with globals := h.globals.insert name hxy }) fun _ =>
    .of_eq rfl rfl

/-! ## Classes and modules -/

theorem registerClass (name : String) {x y : Ref} (hxy : ρ x y) :
    Respects ρ (modify fun vm => { vm with classes := vm.classes.insert name x })
      (modify fun vm => { vm with classes := vm.classes.insert name y }) Anything :=
  changing (fun _ _ h => { h with classes := h.classes.insert name hxy }) fun _ =>
    .of_eq rfl rfl

theorem registerModule (name : String) {x y : Ref} (hxy : ρ x y) :
    Respects ρ (modify fun vm => { vm with modules := vm.modules.insert name x })
      (modify fun vm => { vm with modules := vm.modules.insert name y }) Anything :=
  changing (fun _ _ h => { h with modules := h.modules.insert name hxy }) fun _ =>
    .of_eq rfl rfl

/-- A new class. Its super class must be a class on the left side. -/
theorem addClass {c d : Class} (hcd : c.Related ρ d) (hstd : c.slots.Standard) {v w : Vm}
    (hvw : v.Related ρ w) (hsup : ∀ s, c.super = some s → ∃ e, v.heap.cls s = .ok e) :
    Ends ρ v (fun σ _ => Renamed σ) (Vm.addClass c v) (Vm.addClass d w) := by
  unfold Vm.addClass
  rw [hcd.name]
  have hnew := Ends.alloc hvw (hvw.heap.builtin .cls) (.cls hcd)
    (hvw.heap.left.admits_builtin rfl ?_ ?_)
  · refine (hnew.mono fun _ _ _ _ hR => hR.1).andThen fun σ hσ x y hxy => ?_
    refine (registerClass _ hxy).bind fun τ hτ _ _ _ => ?_
    exact (trace _ _ _ _).bind fun υ hυ _ _ _ => return_ (hυ _ _ (hτ _ _ hxy))
  · intro s hs
    obtain ⟨s', -, hss⟩ := forall₂_mem_left (Payload.Related.cls hcd).refs hs
    exact hvw.heap.live_left hss
  · rintro e ⟨⟩
    exact ⟨hstd, hsup⟩

theorem classNew (name : String) {super super' : Option Ref} (h : Option.Rel ρ super super')
    (size : Nat) :
    Respects ρ (Vm.classNew name super size) (Vm.classNew name super' size) Renamed := by
  intro v w hvw
  unfold Vm.classNew
  cases h with
  | none =>
    have hrel : Class.Related ρ ⟨name, none, size, {}, {}⟩ ⟨name, none, size, {}, {}⟩ :=
      ⟨rfl, .none, rfl, rfl, .empty⟩
    exact addClass hrel (.inr ⟨none, rfl⟩) hvw fun s hs => by cases hs
  | @some r s hrs =>
    refine (Observes.cls hrs).ends hvw fun c d hc hcd => ?_
    have hrel : Class.Related ρ ⟨name, some r, size, { str := c.slots.str }, {}⟩
        ⟨name, some s, size, { str := d.slots.str }, {}⟩ :=
      ⟨rfl, .some hrs, rfl, by rw [hcd.slots], .empty⟩
    refine addClass hrel (.inr ⟨_, rfl⟩) hvw ?_
    rintro s ⟨⟩
    exact ⟨c, Action.ofHeap_eq_ok hc⟩

theorem newMember (hrs : ρ r s) (name : String) (member : Member) :
    Respects ρ (Vm.newMember r name member) (Vm.newMember s name member) Renamed := by
  cases member with
  | native f => exact newNative name f
  | code unit => exact newBytecodeMethod unit (.some hrs)

theorem importMembers (hrs : ρ r s) (members : List (String × Member)) :
    Respects ρ (Vm.importMembers r members) (Vm.importMembers s members) Anything := by
  induction members generalizing ρ with
  | nil => exact return_ trivial
  | cons entry rest ih =>
    obtain ⟨name, member⟩ := entry
    unfold Vm.importMembers
    refine (newMember hrs name member).bind fun σ hσ x y hxy => ?_
    refine (newVar (.some hxy)).bind fun τ hτ a b hab => ?_
    have hrs' : τ r s := hτ _ _ (hσ _ _ hrs)
    exact (addLocal hrs' name hab).bind fun υ hυ _ _ _ => ih (hυ _ _ hrs')

theorem importModule (name : String) :
    Respects ρ (Vm.importModule name) (Vm.importModule name) Renamed := by
  unfold Vm.importModule
  refine Leads.get_bind fun v w hvw => ?_
  have hfound := hvw.modules.find? name
  generalize v.modules.find? name = x, w.modules.find? name = y at hfound ⊢
  cases hfound with
  | some hxy => exact return_ hxy
  | none =>
    refine Leads.get_bind fun v w hvw => ?_
    rw [hvw.registry]
    cases w.registry.find? name with
    | none => exact Leads.raise nofun
    | some spec =>
      refine (new (.module ⟨rfl, .empty⟩) rfl (by decide)).bind fun σ hσ a b hab => ?_
      refine (registerModule name hab).bind fun τ hτ _ _ _ => ?_
      refine (importMembers (hτ _ _ hab) _).bind fun υ hυ _ _ _ => ?_
      refine (trace _ _ _ _).bind fun φ hφ _ _ _ => return_ ?_
      exact hφ _ _ (hυ _ _ (hτ _ _ hab))

theorem raisedValue {e f : Error} (h : e.Related ρ f) :
    Respects ρ (Vm.raisedValue e) (Vm.raisedValue f) Renamed := by
  cases h with
  | panic hvw => exact return_ hvw
  | same hne =>
    cases e with
    | panic v => exact absurd rfl (hne v)
    | _ => exact newError _ .none

end Respects
end ObjectMachine
