import ObjectMachine.Heap.Compare
import ObjectMachine.Heap.Display
import ObjectMachine.Proofs.Renaming.Heaps

/-!
# ObjectMachine.Proofs.Renaming.Questions

Related heaps give the same answers to questions about objects that stand for each other.

* `Fatal.Related`, `Error.Related`, `Stop.Related` — failures that say the same. A reference that
  is stale or foreign is related to nothing.
* `Agree` — two answers that are related, or two failures.
* `Heap.Related.payload`, `Heap.Related.compare`, `Heap.Related.display`, … — one lemma for each
  question.
-/

namespace ObjectMachine

/-- The object that a failure is about. -/
def Fatal.ref? : Fatal → Option Ref
  | .collected r | .foreign r _ | .wrongKind r _ _ | .bindsNoMethod r _ => some r
  | _ => none

inductive Fatal.Related (ρ : Renaming) : Fatal → Fatal → Prop where
  | wrongKind {r s : Ref} {kind required : String} :
      ρ r s → Fatal.Related ρ (.wrongKind r kind required) (.wrongKind s kind required)
  | bindsNoMethod {r s : Ref} {kind : String} :
      ρ r s → Fatal.Related ρ (.bindsNoMethod r kind) (.bindsNoMethod s kind)
  | same {f : Fatal} : f.ref? = none → Fatal.Related ρ f f

inductive Error.Related (ρ : Renaming) : Error → Error → Prop where
  | panic {v w : Ref} : ρ v w → Error.Related ρ (.panic v) (.panic w)
  | same {e : Error} : (∀ v, e ≠ .panic v) → Error.Related ρ e e

inductive Stop.Related (ρ : Renaming) : Stop → Stop → Prop where
  | raised {e f : Error} : e.Related ρ f → Stop.Related ρ (.raised e) (.raised f)
  | fatal {e f : Fatal} : e.Related ρ f → Stop.Related ρ (.fatal e) (.fatal f)
  | crashed : Stop.Related ρ .crashed .crashed

/-- Two answers that are related by `R`, or two failures that are related by `E`. -/
inductive Agree {ε α β : Type} (E : ε → ε → Prop) (R : α → β → Prop) :
    Except ε α → Except ε β → Prop where
  | ok {a : α} {b : β} : R a b → Agree E R (.ok a) (.ok b)
  | error {e f : ε} : E e f → Agree E R (.error e) (.error f)

namespace Agree

variable {ε α β γ δ : Type} {E : ε → ε → Prop} {R : α → β → Prop} {S : γ → δ → Prop}

theorem bind {x : Except ε α} {y : Except ε β} {f : α → Except ε γ} {g : β → Except ε δ}
    (h : Agree E R x y) (hfg : ∀ a b, R a b → Agree E S (f a) (g b)) :
    Agree E S (x >>= f) (y >>= g) := by
  cases h with
  | ok hab => exact hfg _ _ hab
  | error he => exact .error he

theorem bindEq {x y : Except ε α} {f : α → Except ε γ} {g : α → Except ε δ} (h : Agree E Eq x y)
    (hfg : ∀ a, Agree E S (f a) (g a)) : Agree E S (x >>= f) (y >>= g) :=
  h.bind fun a _ hab => hab ▸ hfg a

theorem imp {S : α → β → Prop} {x : Except ε α} {y : Except ε β} (h : Agree E R x y)
    (hRS : ∀ a b, R a b → S a b) : Agree E S x y := by
  cases h with
  | ok hab => exact .ok (hRS _ _ hab)
  | error he => exact .error he

theorem mapM {f : γ → Except ε α} {g : δ → Except ε β} {as : List γ} {bs : List δ}
    (h : List.Forall₂ S as bs) (hfg : ∀ a b, S a b → Agree E R (f a) (g b)) :
    Agree E (List.Forall₂ R) (as.mapM f) (bs.mapM g) := by
  induction h with
  | nil => exact .ok .nil
  | cons hab _ ih =>
    rw [List.mapM_cons, List.mapM_cons]
    refine (hfg _ _ hab).bind fun a b hR => ?_
    exact ih.bind fun as bs hRs => .ok (.cons hR hRs)

/-- Equal texts are put together to equal texts. -/
theorem text {x y : Except ε (List String)} (h : Agree E (List.Forall₂ Eq) x y)
    (f : List String → String) : Agree E Eq (x >>= fun ts => pure (f ts)) (y >>= fun ts => pure (f ts)) := by
  refine h.bind fun as bs hab => .ok ?_
  rw [List.forall₂_eq_eq_eq] at hab
  rw [hab]

end Agree

namespace Heap.Related

variable {ρ : Renaming} {h h' : Heap} {a b : Ref}

/-! ## Objects and class chains -/

theorem get_agree (hr : h.Related ρ h') (hab : ρ a b) :
    Agree (Fatal.Related ρ) (Obj.Related ρ) (h.get a) (h'.get b) := by
  obtain ⟨o, p, ho, hp, hop⟩ := hr.get hab
  rw [ho, hp]
  exact .ok hop

theorem payload (hr : h.Related ρ h') (hab : ρ a b) :
    Agree (Fatal.Related ρ) (Payload.Related ρ) (h.payload a) (h'.payload b) := by
  obtain ⟨o, p, ho, hp, hop⟩ := hr.get hab
  unfold Heap.payload
  rw [ho, hp]
  exact .ok hop.payload

theorem classOf (hr : h.Related ρ h') (hab : ρ a b) :
    Agree (Fatal.Related ρ) ρ (h.classOf a) (h'.classOf b) := by
  obtain ⟨o, p, ho, hp, hop⟩ := hr.get hab
  unfold Heap.classOf
  rw [ho, hp]
  exact .ok hop.cls

theorem cls (hr : h.Related ρ h') (hab : ρ a b) :
    Agree (Fatal.Related ρ) (Class.Related ρ) (h.cls a) (h'.cls b) := by
  have hp := hr.payload hab
  unfold Heap.cls
  generalize h.payload a = x, h'.payload b = y at hp ⊢
  cases hp with
  | error he => exact .error he
  | ok hpq =>
    cases hpq with
    | cls hcd => exact .ok hcd
    | _ => exact .error (.wrongKind hab)

theorem className (hr : h.Related ρ h') (hab : ρ a b) :
    Agree (Fatal.Related ρ) Eq (h.className a) (h'.className b) := by
  unfold Heap.className
  refine (hr.classOf hab).bind fun k k' hk => ?_
  exact (hr.cls hk).bind fun c d hcd => .ok hcd.name

theorem findSome?_related {α β : Type} {R : α → β → Prop} {cs ds : List Class}
    {pick : Class → Option α} {pick' : Class → Option β} (h : List.Forall₂ (Class.Related ρ) cs ds)
    (hpick : ∀ c d, c.Related ρ d → Option.Rel R (pick c) (pick' d)) :
    Option.Rel R (cs.findSome? pick) (ds.findSome? pick') := by
  induction h with
  | nil => exact .none
  | @cons c d _ _ hcd _ ih =>
    rw [List.findSome?_cons, List.findSome?_cons]
    have := hpick c d hcd
    generalize pick c = x, pick' d = y at this
    cases this with
    | some hR => exact .some hR
    | none => exact ih

theorem findInChain {α β : Type} {R : α → β → Prop} {pick : Class → Option α}
    {pick' : Class → Option β} (hr : h.Related ρ h') (hab : ρ a b)
    (hpick : ∀ c d, c.Related ρ d → Option.Rel R (pick c) (pick' d)) :
    Agree (Fatal.Related ρ) (Option.Rel R) (h.findInChain pick a) (h'.findInChain pick' b) := by
  cases hc : h.cls a with
  | ok c =>
    obtain ⟨cs, hl⟩ := hr.left.lineage a c hc
    obtain ⟨ds, hl', hds⟩ := hr.lineage hl hab
    rw [hl.findInChain, hl'.findInChain]
    exact .ok (findSome?_related hds hpick)
  | error e =>
    have hcls := hr.cls hab
    rw [hc] at hcls
    generalize hd : h'.cls b = d at hcls
    cases hcls with
    | error he =>
      unfold Heap.findInChain Heap.findFrom
      rw [hc, hd]
      exact .error he

theorem findSlot {α : Type} (hr : h.Related ρ h') (pick : Slots → Option α) (hab : ρ a b) :
    Agree (Fatal.Related ρ) Eq (h.findSlot pick a) (h'.findSlot pick b) := by
  have hpick : ∀ c d : Class, c.Related ρ d → Option.Rel Eq (pick c.slots) (pick d.slots) :=
    fun c d hcd => hcd.slots ▸ optionRel_same fun _ _ => rfl
  refine (hr.findInChain hab hpick).imp fun x y hxy => ?_
  cases hxy with
  | none => rfl
  | some heq => rw [heq]

theorem requireSlot {α : Type} (hr : h.Related ρ h') (slot : Slot) (pick : Slots → Option α)
    (hab : ρ a b) :
    Agree (Fatal.Related ρ) Eq (h.requireSlot slot pick a) (h'.requireSlot slot pick b) := by
  unfold Heap.requireSlot
  refine (hr.findSlot pick hab).bindEq fun found => ?_
  cases found with
  | some f => exact .ok rfl
  | none =>
    refine (hr.cls hab).bind fun c d hcd => ?_
    rw [hcd.name]
    exact .error (.same rfl)

theorem lookupMethod (hr : h.Related ρ h') (hab : ρ a b) (name : String) :
    Agree (Fatal.Related ρ) (Option.Rel ρ) (h.lookupMethod a name) (h'.lookupMethod b name) :=
  hr.findInChain hab fun _ _ hcd => hcd.methods.find? name

end Heap.Related

/-! ## Comparison -/

/-- Comparisons that say the same of objects that stand for each other. -/
def Comparison.Related (ρ : Renaming) (cmp cmp' : Comparison) : Prop :=
  ∀ a a' b b', ρ a a' → ρ b b' → Agree (Fatal.Related ρ) Eq (cmp a b) (cmp' a' b')

section Compare

variable {ρ : Renaming} {h h' : Heap} {cmp cmp' : Comparison}

theorem compareItems_agree (hcmp : cmp.Related ρ cmp') {as as' bs bs' : List Ref}
    (ha : List.Forall₂ ρ as as') (hb : List.Forall₂ ρ bs bs') :
    Agree (Fatal.Related ρ) Eq (compareItems cmp as bs) (compareItems cmp' as' bs') := by
  induction ha generalizing bs bs' with
  | nil => cases hb <;> exact .ok rfl
  | cons hx _ ih =>
    cases hb with
    | nil => exact .ok rfl
    | cons hy hb =>
      have hc := hcmp _ _ _ _ hx hy
      unfold compareItems
      generalize cmp _ _ = x, cmp' _ _ = y at hc ⊢
      cases hc with
      | error he => exact .error he
      | @ok o _ heq =>
        subst heq
        rcases o with _ | _ | _ | _
        · exact .ok rfl
        · exact .ok rfl
        · exact ih hb
        · exact .ok rfl

theorem positionIn_agree (hcmp : cmp.Related ρ cmp') {key key' : Ref} (hkey : ρ key key')
    {ks ks' : List Ref} (hks : List.Forall₂ ρ ks ks') (start : Nat) :
    Agree (Fatal.Related ρ) Eq (positionIn cmp key start ks) (positionIn cmp' key' start ks') := by
  induction hks generalizing start with
  | nil => exact .ok rfl
  | cons hk _ ih =>
    have hc := hcmp _ _ _ _ hk hkey
    unfold positionIn
    generalize cmp _ _ = x, cmp' _ _ = y at hc ⊢
    cases hc with
    | error he => exact .error he
    | @ok o _ heq =>
      subst heq
      rcases o with _ | _ | _ | _
      · exact ih _
      · exact ih _
      · exact .ok rfl
      · exact ih _

theorem entriesWithin_agree (hcmp : cmp.Related ρ cmp') {t t' : HashTable} (ht : t.Related ρ t')
    {es es' : List (Ref × Ref)} (hes : List.Forall₂ (fun e f => ρ e.1 f.1 ∧ ρ e.2 f.2) es es') :
    Agree (Fatal.Related ρ) Eq (entriesWithin cmp t es) (entriesWithin cmp' t' es') := by
  induction hes with
  | nil => exact .ok rfl
  | @cons e f _ _ hef _ ih =>
    obtain ⟨k, v⟩ := e
    obtain ⟨k', v'⟩ := f
    have hpos := positionIn_agree hcmp hef.1 ht.keys 0
    unfold entriesWithin
    generalize positionIn cmp _ _ _ = x, positionIn cmp' _ _ _ = y at hpos ⊢
    cases hpos with
    | error he => exact .error he
    | @ok i _ heq =>
      subst heq
      cases i with
      | none => exact .ok rfl
      | some i =>
        have hi := forall₂_getElem? ht i
        rw [Array.getElem?_toList, Array.getElem?_toList] at hi
        dsimp only
        generalize t.entries[i]? = m, t'.entries[i]? = n at hi ⊢
        cases hi with
        | none => exact .ok rfl
        | @some m n hmn =>
          obtain ⟨l, w⟩ := m
          obtain ⟨l', w'⟩ := n
          have hc := hcmp _ _ _ _ hef.2 hmn.2
          dsimp only
          generalize cmp v w = x, cmp' v' w' = y at hc ⊢
          cases hc with
          | error he => exact .error he
          | @ok o _ heq =>
            subst heq
            rcases o with _ | _ | _ | _
            · exact .ok rfl
            · exact .ok rfl
            · exact ih
            · exact .ok rfl

theorem compareHashes_agree (hcmp : cmp.Related ρ cmp') {s s' t t' : HashTable}
    (hs : s.Related ρ s') (ht : t.Related ρ t') :
    Agree (Fatal.Related ρ) Eq (compareHashes cmp s t) (compareHashes cmp' s' t') := by
  unfold compareHashes
  rw [hs.size, ht.size]
  split
  · have hin := entriesWithin_agree hcmp ht hs
    generalize entriesWithin cmp _ _ = x, entriesWithin cmp' _ _ = y at hin ⊢
    cases hin with
    | error he => exact .error he
    | @ok b _ heq =>
      subst heq
      cases b <;> exact .ok rfl
  · exact .ok rfl

theorem CmpFn.run_agree (f : CmpFn) (hr : h.Related ρ h') (hcmp : cmp.Related ρ cmp')
    {a a' b b' : Ref} (ha : ρ a a') (hb : ρ b b') :
    Agree (Fatal.Related ρ) Eq (f.run h cmp a b) (f.run h' cmp' a' b') := by
  -- every comparison looks at the kind of one operand, then at that of the other
  have hleft := hr.payload ha
  have hright := hr.payload hb
  unfold CmpFn.run
  cases f with
  | never => exact .ok rfl
  | aboveInts => exact hright.bind fun p q hpq => by cases hpq <;> exact .ok rfl
  | unwrap =>
    refine hleft.bind fun p q hpq => ?_
    cases hpq with
    | @object s t hslots =>
      have h0 := forall₂_getElem? hslots 0
      rw [Array.getElem?_toList, Array.getElem?_toList] at h0
      dsimp only
      generalize s[0]? = x, t[0]? = y at h0 ⊢
      cases h0 with
      | none => exact .ok rfl
      | some hxy => exact hcmp _ _ _ _ hxy hb
    | _ => exact .ok rfl
  | bool =>
    refine hleft.bind fun p q hpq => ?_
    cases hpq with
    | bool x => exact hright.bind fun p q hpq => by cases hpq <;> exact .ok rfl
    | _ => exact .ok rfl
  | number =>
    refine hleft.bind fun p q hpq => ?_
    cases hpq with
    | int x => exact hright.bind fun p q hpq => by cases hpq <;> exact .ok rfl
    | float x => exact hright.bind fun p q hpq => by cases hpq <;> exact .ok rfl
    | _ => exact .ok rfl
  | bytes =>
    refine hleft.bind fun p q hpq => ?_
    cases hpq with
    | str x => exact hright.bind fun p q hpq => by cases hpq <;> exact .ok rfl
    | _ => exact .ok rfl
  | array =>
    refine hleft.bind fun p q hpq => ?_
    cases hpq with
    | array hxs =>
      refine hright.bind fun p q hpq => ?_
      cases hpq with
      | array hys => exact compareItems_agree hcmp hxs hys
      | _ => exact .ok rfl
    | _ => exact .ok rfl
  | hash =>
    refine hleft.bind fun p q hpq => ?_
    cases hpq with
    | hash hs =>
      refine hright.bind fun p q hpq => ?_
      cases hpq with
      | hash ht => exact compareHashes_agree hcmp hs ht
      | _ => exact .ok rfl
    | _ => exact .ok rfl
  | task =>
    refine hleft.bind fun p q hpq => ?_
    cases hpq with
    | task x => exact hright.bind fun p q hpq => by cases hpq <;> exact .ok rfl
    | _ => exact .ok rfl

theorem NonzeroFn.run_related (f : NonzeroFn) {p q : Payload} (hpq : p.Related ρ q) :
    f.run p = f.run q := by
  cases hpq with
  | array h =>
    have hlen := h.length_eq
    rw [Array.length_toList, Array.length_toList] at hlen
    cases f <;> simp [NonzeroFn.run, hlen]
  | hash h => cases f <;> simp [NonzeroFn.run, h.size]
  | _ => cases f <;> rfl

namespace Heap.Related

theorem compareLeft (hr : h.Related ρ h') (hcmp : cmp.Related ρ cmp') {a a' b b' : Ref}
    (ha : ρ a a') (hb : ρ b b') :
    Agree (Fatal.Related ρ) Eq (h.compareLeft cmp a b) (h'.compareLeft cmp' a' b') := by
  unfold Heap.compareLeft
  refine (hr.classOf ha).bind fun k k' hk => (hr.findSlot Slots.cmp hk).bindEq fun found => ?_
  cases found with
  | none => exact .ok rfl
  | some f => exact f.run_agree hr hcmp ha hb

theorem compareWithin (hr : h.Related ρ h') (levels : Nat) :
    Comparison.Related ρ (h.compareWithin levels) (h'.compareWithin levels) := by
  induction levels with
  | zero =>
    intro a a' b b' ha hb
    unfold Heap.compareWithin
    by_cases heq : a = b
    · rw [if_pos heq, if_pos ((hr.eq_iff ha hb).mp heq)]
      exact .ok rfl
    · rw [if_neg heq, if_neg fun h => heq ((hr.eq_iff ha hb).mpr h)]
      exact .ok rfl
  | succ levels ih =>
    intro a a' b b' ha hb
    unfold Heap.compareWithin
    by_cases heq : a = b
    · rw [if_pos heq, if_pos ((hr.eq_iff ha hb).mp heq)]
      exact .ok rfl
    · rw [if_neg heq, if_neg fun h => heq ((hr.eq_iff ha hb).mpr h)]
      have hleft := hr.compareLeft ih ha hb
      have hright := hr.compareLeft ih hb ha
      dsimp only
      generalize h.compareLeft _ a b = x, h'.compareLeft _ a' b' = x' at hleft ⊢
      generalize h.compareLeft _ b a = y, h'.compareLeft _ b' a' = y' at hright ⊢
      cases hleft with
      | error he => exact .error he
      | @ok o _ heq =>
        subst heq
        cases o with
        | some o => exact .ok rfl
        | none =>
          cases hright with
          | error he => exact .error he
          | ok heq => exact .ok (by rw [heq])

theorem compare (hr : h.Related ρ h') : Comparison.Related ρ h.compare h'.compare := by
  unfold Heap.compare
  rw [hr.nesting]
  exact hr.compareWithin _

theorem equals (hr : h.Related ρ h') {a a' b b' : Ref} (ha : ρ a a') (hb : ρ b b') :
    Agree (Fatal.Related ρ) Eq (h.equals a b) (h'.equals a' b') := by
  have hc := hr.compare _ _ _ _ ha hb
  unfold Heap.equals
  generalize h.compare a b = x, h'.compare a' b' = y at hc ⊢
  cases hc with
  | error he => exact .error he
  | ok heq => exact .ok (by rw [heq])

theorem position? (hr : h.Related ρ h') {t t' : HashTable} (ht : t.Related ρ t') {key key' : Ref}
    (hkey : ρ key key') :
    Agree (Fatal.Related ρ) Eq (h.position? t key) (h'.position? t' key') :=
  positionIn_agree hr.compare hkey ht.keys 0

theorem truthy (hr : h.Related ρ h') {a b : Ref} (hab : ρ a b) :
    Agree (Fatal.Related ρ) Eq (h.truthy a) (h'.truthy b) := by
  unfold Heap.truthy
  refine (hr.get_agree hab).bind fun o p hop => (hr.requireSlot .nonzero _ hop.cls).bindEq fun f => ?_
  exact .ok (f.run_related hop.payload)

end Heap.Related
end Compare

/-! ## Display -/

/-- Printers that write the same for objects that stand for each other. -/
def Printer.Related (ρ : Renaming) (print print' : Printer) : Prop :=
  ∀ a b, ρ a b → Agree (Fatal.Related ρ) Eq (print a) (print' b)

section Display

variable {ρ : Renaming} {h h' : Heap} {print print' : Printer}

theorem displayItems_agree (hprint : print.Related ρ print') {as bs : List Ref}
    (hab : List.Forall₂ ρ as bs) :
    Agree (Fatal.Related ρ) Eq (displayItems print as) (displayItems print' bs) :=
  (Agree.mapM hab hprint).text _

theorem displayEntries_agree (hprint : print.Related ρ print') {es fs : List (Ref × Ref)}
    (hef : List.Forall₂ (fun e f => ρ e.1 f.1 ∧ ρ e.2 f.2) es fs) :
    Agree (Fatal.Related ρ) Eq (displayEntries print es) (displayEntries print' fs) := by
  refine (Agree.mapM hef fun e f hef => ?_).text _
  refine (hprint _ _ hef.1).bindEq fun key => ?_
  refine (hprint _ _ hef.2).bindEq fun value => ?_
  exact .ok rfl

theorem StrFn.run_agree (f : StrFn) (hr : h.Related ρ h') (hprint : print.Related ρ print')
    {a b : Ref} (hab : ρ a b) {o o' : Obj} (ho : o.Related ρ o') :
    Agree (Fatal.Related ρ) Eq (f.run h print a o) (f.run h' print' b o') := by
  obtain ⟨k, p⟩ := o
  obtain ⟨k', p'⟩ := o'
  obtain ⟨hk, hp⟩ : ρ k k' ∧ p.Related ρ p' := ⟨ho.cls, ho.payload⟩
  unfold StrFn.run
  cases f with
  | fixed text => exact .ok rfl
  | nil => exact .ok rfl
  | object => exact (hr.cls hk).bind fun c d hcd => .ok (by rw [hcd.name])
  | cls => exact (hr.cls hab).bind fun c d hcd => .ok (by rw [hcd.name])
  | bool =>
    cases hp with
    | bool b => cases b <;> exact .ok rfl
    | _ => exact .ok rfl
  | int => cases hp <;> exact .ok rfl
  | float => cases hp <;> exact .ok rfl
  | str => cases hp <;> exact .ok rfl
  | task => cases hp <;> exact .ok rfl
  | array =>
    cases hp with
    | array hitems =>
      refine (displayItems_agree hprint hitems).bindEq fun text => ?_
      exact .ok rfl
    | _ => exact .ok rfl
  | hash =>
    cases hp with
    | hash ht =>
      refine (displayEntries_agree hprint ht).bindEq fun text => ?_
      exact .ok rfl
    | _ => exact .ok rfl
  | method =>
    cases hp with
    | method hm => exact .ok (by rw [hm.name, optionRel_isSome hm.receiver])
    | _ => exact .ok rfl
  | code =>
    cases hp with
    | code hc => exact .ok (by rw [hc.unit])
    | _ => exact .ok rfl
  | frame =>
    cases hp with
    | frame hf =>
      refine (hr.payload hf.method).bind fun q q' hq => ?_
      cases hq with
      | method hm => exact .ok (by rw [hm.name])
      | _ => exact .ok rfl
    | _ => exact .ok rfl
  | module =>
    cases hp with
    | module hm => exact .ok (by rw [hm.name])
    | _ => exact .ok rfl
  | var =>
    cases hp with
    | var hv =>
      cases hv with
      | none => exact .ok rfl
      | some hv =>
        refine (hprint _ _ hv).bindEq fun text => ?_
        exact .ok rfl
    | _ => exact .error (.wrongKind hab)
  | error =>
    cases hp with
    | @error e e' he =>
      obtain ⟨message, cause, trace⟩ := e
      obtain ⟨message', cause', trace'⟩ := e'
      obtain ⟨rfl, hcause, -⟩ := he
      cases hcause with
      | none => exact .ok rfl
      | some hc =>
        refine (hprint _ _ hc).bindEq fun text => ?_
        exact .ok rfl
    | _ => exact .ok rfl

namespace Heap.Related

theorem displayWithin (hr : h.Related ρ h') (levels : Nat) :
    Printer.Related ρ (h.displayWithin levels) (h'.displayWithin levels) := by
  induction levels with
  | zero => exact fun _ _ _ => .ok rfl
  | succ levels ih =>
    intro a b hab
    unfold Heap.displayWithin
    refine (hr.get_agree hab).bind fun o p hop => (hr.cls hop.cls).bind fun c d hcd => ?_
    rw [hcd.slots, hcd.name]
    split
    · exact StrFn.run_agree _ hr ih hab hop
    · exact .error (.same rfl)

theorem display (hr : h.Related ρ h') : Printer.Related ρ h.display h'.display := by
  unfold Heap.display
  rw [hr.nesting]
  exact hr.displayWithin _

end Heap.Related
end Display
end ObjectMachine
