import ObjectMachine.Proofs.Renaming.Making
import ObjectMachine.Vm.Operators

/-!
# ObjectMachine.Proofs.Renaming.Operators

Arithmetic, attributes and indexing do the same in related states.

* `Observes.numberOf`, `Observes.itemsOf`, … — the contents of an operand.
* `Observes.require` — the function of an operator.
* `Respects.binary`, `Respects.getAttr`, `Respects.getItem`, `Observes.compare` — the operators.
-/

namespace ObjectMachine

variable {ρ : Renaming} {r s : Ref}

/-! ## Operands -/

namespace Observes

theorem numberOf (hrs : ρ r s) : Observes ρ (Vm.numberOf r) (Vm.numberOf s) Eq := by
  unfold Vm.numberOf
  refine (payload hrs).bind fun p q hpq => ?_
  cases hpq with
  | int i => exact return_ rfl
  | float x => exact return_ rfl
  | _ => exact mismatch _ hrs

theorem intOf (hrs : ρ r s) : Observes ρ (Vm.intOf r) (Vm.intOf s) Eq := by
  unfold Vm.intOf
  refine (payload hrs).bind fun p q hpq => ?_
  cases hpq with
  | int i => exact return_ rfl
  | _ => exact mismatch _ hrs

theorem bytesOf (hrs : ρ r s) : Observes ρ (Vm.bytesOf r) (Vm.bytesOf s) Eq := by
  unfold Vm.bytesOf
  refine (payload hrs).bind fun p q hpq => ?_
  cases hpq with
  | str b => exact return_ rfl
  | _ => exact mismatch _ hrs

theorem textOf (hrs : ρ r s) : Observes ρ (Vm.textOf r) (Vm.textOf s) Eq := by
  unfold Vm.textOf
  refine (bytesOf hrs).bindEq fun b => ?_
  exact return_ rfl

theorem itemsOf (hrs : ρ r s) :
    Observes ρ (Vm.itemsOf r) (Vm.itemsOf s) fun xs ys => List.Forall₂ ρ xs.toList ys.toList := by
  unfold Vm.itemsOf
  refine (payload hrs).bind fun p q hpq => ?_
  cases hpq with
  | array h => exact return_ h
  | _ => exact mismatch _ hrs

theorem tableOf (hrs : ρ r s) :
    Observes ρ (Vm.tableOf r) (Vm.tableOf s) (HashTable.Related ρ) := by
  unfold Vm.tableOf
  refine (payload hrs).bind fun p q hpq => ?_
  cases hpq with
  | hash h => exact return_ h
  | _ => exact mismatch _ hrs

theorem taskOf (hrs : ρ r s) : Observes ρ (Vm.taskOf r) (Vm.taskOf s) Eq := by
  unfold Vm.taskOf
  refine (payload hrs).bind fun p q hpq => ?_
  cases hpq with
  | task t => exact return_ rfl
  | _ => exact mismatch _ hrs

theorem require {α : Type} (slot : Slot) (pick : Slots → Option α) (hrs : ρ r s) :
    Observes ρ (Vm.require slot pick r) (Vm.require slot pick s) Eq :=
  ofHeap fun _ _ h => (h.classOf hrs).bind fun _ _ hk => h.requireSlot slot pick hk

theorem compare {x y : Ref} (hrs : ρ r s) (hxy : ρ x y) :
    Observes ρ (Vm.compare r x) (Vm.compare s y) Eq := by
  unfold Vm.compare
  refine (ofHeap fun _ _ h => h.compare _ _ _ _ hrs hxy).bindEq fun found => ?_
  cases found with
  | some o => exact return_ rfl
  | none =>
    refine (className hrs).bindEq fun left => ?_
    refine (className hxy).bindEq fun right => ?_
    exact raise nofun

theorem equals {x y : Ref} (hrs : ρ r s) (hxy : ρ x y) :
    Observes ρ (Vm.equals r x) (Vm.equals s y) Eq :=
  ofHeap fun _ _ h => h.equals hrs hxy

theorem truthy (hrs : ρ r s) : Observes ρ (Vm.truthy r) (Vm.truthy s) Eq :=
  ofHeap fun _ _ h => h.truthy hrs

theorem display (hrs : ρ r s) : Observes ρ (Vm.display r) (Vm.display s) Eq :=
  ofHeap fun _ _ h => h.display _ _ hrs

theorem lookupMethod (hrs : ρ r s) (name : String) :
    Observes ρ (Action.ofHeap fun h => h.lookupMethod r name)
      (Action.ofHeap fun h => h.lookupMethod s name) (Option.Rel ρ) :=
  ofHeap fun _ _ h => h.lookupMethod hrs name

theorem classOf (hrs : ρ r s) :
    Observes ρ (Action.ofHeap fun h => h.classOf r) (Action.ofHeap fun h => h.classOf s) ρ :=
  ofHeap fun _ _ h => h.classOf hrs

theorem position? {t u : HashTable} (htu : t.Related ρ u) (hrs : ρ r s) :
    Observes ρ (Action.ofHeap fun h => h.position? t r) (Action.ofHeap fun h => h.position? u s)
      Eq :=
  ofHeap fun _ _ h => h.position? htu hrs

end Observes

/-! ## Operators -/

namespace Respects

theorem arith (op : Arith) {x y : Ref} (hrs : ρ r s) (hxy : ρ x y) :
    Respects ρ (Vm.arith op r x) (Vm.arith op s y) Renamed := by
  unfold Vm.arith
  refine (Observes.numberOf hrs).andEq fun m => ?_
  refine (Observes.numberOf hxy).andEq fun n => ?_
  cases m with
  | float a => exact newFloat _
  | int i =>
    cases n with
    | float b => exact newFloat _
    | int j =>
      dsimp only
      split
      · exact newInt _
      · exact Leads.raise nofun

theorem runBinary (f : BinaryFn) {x y : Ref} (hrs : ρ r s) (hxy : ρ x y) :
    Respects ρ (Vm.runBinary f r x) (Vm.runBinary f s y) Renamed := by
  unfold Vm.runBinary
  cases f with
  | number op => exact arith op hrs hxy
  | strAdd =>
    refine (Observes.bytesOf hrs).andEq fun a => ?_
    refine (Observes.bytesOf hxy).andEq fun b => ?_
    exact newBytes _
  | strMul =>
    refine (Observes.intOf hxy).andEq fun n => ?_
    refine (Observes.bytesOf hrs).andEq fun b => ?_
    dsimp only
    split
    · exact Leads.fails .crashed
    · exact newBytes _
  | arrayAdd =>
    refine (Observes.itemsOf hrs).andThen fun as as' ha => ?_
    refine (Observes.itemsOf hxy).andThen fun bs bs' hb => ?_
    exact newArray (List.rel_append ha hb)
  | left => exact return_ hrs
  | right => exact return_ hxy
  | pair => exact newArray (.cons hrs (.cons hxy .nil))
  | fail => exact Leads.raise nofun

theorem binary (op : Arith) {x y : Ref} (hrs : ρ r s) (hxy : ρ x y) :
    Respects ρ (Vm.binary op r x) (Vm.binary op s y) Renamed := by
  unfold Vm.binary
  refine (Observes.require _ _ hrs).andEq fun f => ?_
  exact runBinary f hrs hxy

theorem strOf (hrs : ρ r s) : Respects ρ (Vm.strOf r) (Vm.strOf s) Renamed := by
  unfold Vm.strOf
  refine (Observes.display hrs).andEq fun text => ?_
  exact newStr text

/-! ## Attributes -/

theorem getMethod (hrs : ρ r s) (name : String) :
    Respects ρ (Vm.getMethod r name) (Vm.getMethod s name) Renamed := by
  unfold Vm.getMethod
  refine (Observes.classOf hrs).andThen fun k k' hk => ?_
  refine (Observes.lookupMethod hk name).andThen fun m n hmn => ?_
  cases hmn with
  | some hmn => exact bindMethod hmn hrs
  | none =>
    refine (Observes.cls hk).andThen fun c d hcd => ?_
    rw [hcd.name]
    exact Leads.raise nofun

theorem getClassAttr (hrs : ρ r s) (name : String) :
    Respects ρ (Vm.getClassAttr r name) (Vm.getClassAttr s name) Renamed := by
  unfold Vm.getClassAttr
  split
  · refine (Observes.cls hrs).andThen fun c d hcd => ?_
    rw [hcd.name]
    exact newStr _
  · split
    · refine (Observes.cls hrs).andThen fun c d hcd => ?_
      have hsup := hcd.super
      generalize c.super = x, d.super = y at hsup ⊢
      cases hsup with
      | some h => exact return_ h
      | none => exact Observes.nil.respects
    · refine (Observes.lookupMethod hrs name).andThen fun m n hmn => ?_
      cases hmn with
      | some h => exact return_ h
      | none => exact getMethod hrs name

theorem getMember (hrs : ρ r s) (name : String) :
    Respects ρ (Vm.getMember r name) (Vm.getMember s name) Renamed := by
  unfold Vm.getMember
  refine (Observes.payload hrs).andThen fun p q hpq => ?_
  cases hpq with
  | @module m n hmn =>
    have hfound := hmn.locals.find? name
    dsimp only
    rw [hmn.name]
    generalize m.locals.find? name = x, n.locals.find? name = y at hfound ⊢
    cases hfound with
    | none => exact Leads.raise nofun
    | some hxy =>
      refine (Observes.readVar hxy).andThen fun a b hab => ?_
      cases hab with
      | some h => exact return_ h
      | none => exact Leads.raise nofun
  | _ => exact Leads.mismatch _ hrs

theorem getErrorAttr (hrs : ρ r s) (name : String) :
    Respects ρ (Vm.getErrorAttr r name) (Vm.getErrorAttr s name) Renamed := by
  unfold Vm.getErrorAttr
  refine (Observes.payload hrs).andThen fun p q hpq => ?_
  cases hpq with
  | @error e f hef =>
    dsimp only
    rw [hef.message, hef.backtrace]
    split
    · exact newStr _
    · split
      · have hcause := hef.cause
        generalize e.cause = x, f.cause = y at hcause ⊢
        cases hcause with
        | some h => exact return_ h
        | none => exact Observes.nil.respects
      · split
        · exact (newStrs _).bind fun σ hσ xs ys hxys => newArray hxys
        · exact getMethod hrs name
  | _ => exact Leads.mismatch _ hrs

theorem runGetAttr (f : GetAttrFn) (hrs : ρ r s) (name : String) :
    Respects ρ (Vm.runGetAttr f r name) (Vm.runGetAttr f s name) Renamed := by
  unfold Vm.runGetAttr
  cases f with
  | object => exact getMethod hrs name
  | cls => exact getClassAttr hrs name
  | module => exact getMember hrs name
  | error => exact getErrorAttr hrs name
  | name => exact newStr name

theorem getAttr (hrs : ρ r s) (name : String) :
    Respects ρ (Vm.getAttr r name) (Vm.getAttr s name) Renamed := by
  unfold Vm.getAttr
  refine (Observes.require _ _ hrs).andEq fun f => ?_
  exact runGetAttr f hrs name

/-! ## Items -/

theorem runGetItem (f : GetItemFn) {k k' : Ref} (hrs : ρ r s) (hk : ρ k k') :
    Respects ρ (Vm.runGetItem f r k) (Vm.runGetItem f s k') Renamed := by
  unfold Vm.runGetItem
  cases f with
  | str =>
    refine (Observes.intOf hk).andEq fun i => ?_
    refine (Observes.bytesOf hrs).andEq fun b => ?_
    split
    · exact newBytes _
    · exact Leads.raise nofun
  | array =>
    refine (Observes.intOf hk).andEq fun i => ?_
    refine (Observes.itemsOf hrs).andThen fun xs ys hxys => ?_
    have hlen : xs.size = ys.size := by simpa using hxys.length_eq
    rw [hlen]
    cases Vm.place? i ys.size with
    | none => exact Leads.raise nofun
    | some n =>
      have hn := forall₂_getElem? hxys n
      rw [Array.getElem?_toList, Array.getElem?_toList] at hn
      dsimp only
      generalize xs[n]? = x, ys[n]? = y at hn ⊢
      cases hn with
      | some h => exact return_ h
      | none => exact Leads.raise nofun
  | hash =>
    refine (Observes.tableOf hrs).andThen fun t u htu => ?_
    refine (Observes.position? htu hk).andEq fun found => ?_
    cases found with
    | some i =>
      have hi := forall₂_getElem? htu i
      rw [Array.getElem?_toList, Array.getElem?_toList] at hi
      dsimp only
      generalize t.entries[i]? = x, u.entries[i]? = y at hi ⊢
      cases hi with
      | some h => exact return_ h.2
      | none => exact Observes.nil.respects
    | none =>
      refine (Observes.className hrs).andEq fun c => ?_
      refine (Observes.display hk).andEq fun text => ?_
      exact Leads.raise nofun
  | key => exact return_ hk

theorem getItem {k k' : Ref} (hrs : ρ r s) (hk : ρ k k') :
    Respects ρ (Vm.getItem r k) (Vm.getItem s k') Renamed := by
  unfold Vm.getItem
  refine (Observes.require _ _ hrs).andEq fun f => ?_
  exact runGetItem f hrs hk

end Respects
end ObjectMachine
