import ObjectMachine.Proofs.Copying.Regular
import ObjectMachine.Proofs.Copying.TreeOrder

/-!
# ObjectMachine.Proofs.Copying.Rebuilding

A tree whose keys are apart is rebuilt as a value with that tree.

What is rebuilt consists of new objects, the singletons and modules. Two parts of a tree are
therefore rebuilt as values that share nothing whose identity could matter, and the keys of a hash
compare as their trees do: each of them finds a place of its own.

* `Packed.Faithful` — no two keys of a hash are equal trees, modules are registered, and captured
  variables come in the order of their names.
* `Vm.made` — the objects of a state that were not there in another one, and what is common to both.
* `Vm.unpack_builds` — rebuilding a faithful tree.
-/

namespace ObjectMachine

/-! ### Entries in the order of their names -/

namespace NameMap

variable {α : Type}

theorem insertByName_perm (e : String × α) (l : List (String × α)) :
    (insertByName e l).Perm (e :: l) := by
  induction l with
  | nil => exact .refl _
  | cons f rest ih =>
    by_cases hf : f.1 < e.1
    · rw [insertByName, if_pos hf]
      exact (ih.cons f).trans (.swap e f rest)
    · rw [insertByName, if_neg hf]

theorem sortByName_perm (l : List (String × α)) : (sortByName l).Perm l := by
  induction l with
  | nil => exact .refl _
  | cons e rest ih => exact (insertByName_perm e _).trans (ih.cons e)

/-- Names in ascending order. -/
def Sorted (l : List (String × α)) : Prop :=
  l.Pairwise fun e f => e.1 ≤ f.1

theorem insertByName_sorted {e : String × α} {l : List (String × α)} (h : Sorted l) :
    Sorted (insertByName e l) := by
  induction l with
  | nil => exact List.pairwise_singleton _ _
  | cons f rest ih =>
    obtain ⟨hf, hrest⟩ := List.pairwise_cons.mp h
    by_cases hlt : f.1 < e.1
    · rw [insertByName, if_pos hlt]
      refine List.pairwise_cons.mpr ⟨?_, ih hrest⟩
      intro g hg
      rcases List.mem_cons.mp ((insertByName_perm e rest).mem_iff.mp hg) with rfl | hg
      · exact String.not_lt.mp (String.lt_asymm hlt)
      · exact hf g hg
    · rw [insertByName, if_neg hlt]
      have hle : e.1 ≤ f.1 := String.not_lt.mp hlt
      refine List.pairwise_cons.mpr ⟨?_, h⟩
      intro g hg
      rcases List.mem_cons.mp hg with rfl | hg
      · exact hle
      · exact String.le_trans hle (hf g hg)

theorem sortByName_sorted (l : List (String × α)) : Sorted (sortByName l) := by
  induction l with
  | nil => exact .nil
  | cons e rest ih => exact insertByName_sorted ih

theorem sortByName_of_sorted {l : List (String × α)} (h : Sorted l) : sortByName l = l := by
  induction l with
  | nil => rfl
  | cons e rest ih =>
    obtain ⟨he, hrest⟩ := List.pairwise_cons.mp h
    rw [sortByName, ih hrest]
    cases rest with
    | nil => rfl
    | cons f rest => rw [insertByName, if_neg (String.not_lt.mpr (he f (by simp)))]

/-- Entries of different names have one order by name. -/
theorem sortByName_congr {l l' : List (String × α)} (h : l.Perm l')
    (hnodup : (l.map Prod.fst).Nodup) : sortByName l = sortByName l' := by
  have hperm := (sortByName_perm l).trans (h.trans (sortByName_perm l').symm)
  refine hperm.eq_of_pairwise ?_ (sortByName_sorted l) (sortByName_sorted l')
  intro e f he hf hle hge
  have he : e ∈ l := (sortByName_perm l).mem_iff.mp he
  have hf : f ∈ l := h.mem_iff.mpr ((sortByName_perm l').mem_iff.mp hf)
  exact List.inj_on_of_nodup_map hnodup he hf (String.le_antisymm hle hge)

/-- A name that is not there yet comes at the end. -/
theorem insertIn_of_notMem {l : List (String × α)} {name : String} {v : α}
    (h : name ∉ l.map Prod.fst) : insertIn l name v = l ++ [(name, v)] := by
  induction l with
  | nil => rfl
  | cons e rest ih =>
    obtain ⟨n, w⟩ := e
    have hne : n ≠ name := fun heq => h (by simp [heq])
    have hrest : name ∉ rest.map Prod.fst := fun hmem => h (by simp [hmem])
    rw [insertIn, if_neg hne, ih hrest]
    rfl

end NameMap

/-! ### Faithful trees -/

/-- What a method runs can be rebuilt if `F` holds of trees that can. -/
def PackedBody.Faithful (registry : Registry) (F : Packed → Prop) : PackedBody → Prop
  | .native _ => True
  | .bytecode _ name => ∀ n ∈ name, (registry.find? n).isSome = true
  | .closure _ name bindings =>
    (∀ n ∈ name, (registry.find? n).isSome = true) ∧ (bindings.map Prod.fst).Nodup ∧
      NameMap.Sorted bindings ∧ ∀ b ∈ bindings, ∀ q ∈ b.2, F q

theorem PackedBody.Faithful.imp {registry : Registry} {F G : Packed → Prop}
    (hFG : ∀ q, F q → G q) {body : PackedBody} (h : body.Faithful registry F) :
    body.Faithful registry G := by
  cases body with
  | native => exact h
  | bytecode => exact h
  | closure => exact ⟨h.1, h.2.1, h.2.2.1, fun b hb q hq => hFG q (h.2.2.2 b hb q hq)⟩

/-- The tree, of less than `levels` levels, can be rebuilt as a value that has it. -/
def Packed.Faithful (registry : Registry) : Nat → Packed → Prop
  | 0, _ => False
  | levels + 1, .array ps => ∀ q ∈ ps, Packed.Faithful registry levels q
  | levels + 1, .hash es =>
    (∀ e ∈ es, Packed.Faithful registry levels e.1 ∧ Packed.Faithful registry levels e.2) ∧
      es.Pairwise fun e f => Packed.order levels e.1 f.1 ≠ some .eq
  | levels + 1, .error _ cause _ => ∀ q ∈ cause, Packed.Faithful registry levels q
  | levels + 1, .method _ body receiver =>
    body.Faithful registry (Packed.Faithful registry levels) ∧
      ∀ q ∈ receiver, Packed.Faithful registry levels q
  | _ + 1, _ => True

/-! ### What is made -/

/-- What copies share with what was there before. -/
def Payload.Common : Payload → Prop
  | .nil | .bool _ | .module _ => True
  | _ => False

namespace Vm

/-- The objects of `vm'` that are not in `vm`, and those that are common. -/
def made (vm vm' : Vm) : View := fun r p =>
  vm'.heap.payload r = .ok p ∧ (vm.heap.contains r = true → p.Common)

variable {u v v' w vm : Vm} {x : Ref} {m : Nat} {registry : Registry}

theorem made_view : made v w ≤ w.heap.view := fun _ _ h => h.1

theorem made_mono (huv : ∀ r, u.heap.contains r = true → v.heap.contains r = true)
    (hvw : Grows none v' w) : made v v' ≤ made u w :=
  fun r _ h => ⟨hvw.payload nofun h.1, fun hr => h.2 (huv r hr)⟩

theorem IsNew.made {p : Payload} {r : Ref} (h : IsNew v p w r) : made v w r p :=
  ⟨h.2, fun hr => by rw [h.1] at hr; cases hr⟩

theorem IsNew.mono {p : Payload} {r : Ref} (huv : Grows none u v) (h : IsNew v p w r) :
    IsNew u p w r := by
  refine ⟨?_, h.2⟩
  cases hc : u.heap.contains r with
  | false => rfl
  | true =>
    have hnew := h.1
    rw [huv.contains hc] at hnew
    cases hnew

/-- The value is rebuilt with the tree, whatever the state. -/
def Rebuilt (registry : Registry) (m : Nat) (p : Packed) : Prop :=
  ∀ vm : Vm, vm.Regular → vm.registry = registry →
    Builds none vm (unpack p) fun vm' r => (made vm vm').Tree m r p

theorem unpackItems_builds : ∀ {ps : List Packed} {vm : Vm}, vm.Regular → vm.registry = registry →
    (∀ q ∈ ps, Rebuilt registry m q) →
    Builds none vm (unpackItems ps) fun vm' rs => List.Forall₂ ((made vm vm').Tree m) rs ps := by
  intro ps
  induction ps with
  | nil =>
    intro vm hv _ _
    unfold unpackItems
    exact .return_ hv .nil
  | cons p ps ih =>
    intro vm hv hreg hps
    unfold unpackItems
    refine (hps p (by simp) vm hv hreg).bind fun r vm₁ hgrow₁ hr => ?_
    have hrest := ih hgrow₁.regular (hgrow₁.registry.trans hreg) fun q hq => hps q (by simp [hq])
    refine hrest.bind fun rs vm₂ hgrow₂ hrs => .return_ hgrow₂.regular (.cons ?_ ?_)
    · exact hr.mono (made_mono (fun _ => id) hgrow₂) (Nat.le_refl m)
    · exact hrs.imp fun _ _ =>
        View.Tree.mono (made_mono (fun _ => hgrow₁.contains) (.refl hgrow₂.regular)) (Nat.le_refl m)

theorem unpackOption_builds {q : Option Packed} (hv : vm.Regular) (hreg : vm.registry = registry)
    (hq : ∀ p ∈ q, Rebuilt registry m p) :
    Builds none vm (unpackOption q) fun vm' r => Option.Rel ((made vm vm').Tree m) r q := by
  cases q with
  | none =>
    unfold unpackOption
    exact .return_ hv .none
  | some p =>
    unfold unpackOption
    refine (hq p rfl vm hv hreg).bind fun r vm₁ hgrow hr => ?_
    exact .return_ hgrow.regular (.some hr)

theorem unpackBindings_builds : ∀ {qs : List (String × Option Packed)} {vars : NameMap Ref}
    {vm : Vm}, vm.Regular → vm.registry = registry →
    (vars.names ++ qs.map Prod.fst).Nodup → (∀ b ∈ qs, ∀ p ∈ b.2, Rebuilt registry m p) →
    Builds none vm (unpackBindings qs vars) fun vm' vars' => ∃ bs,
      vars'.entries = vars.entries ++ bs ∧
        List.Forall₂ ((made vm vm').Captured ((made vm vm').Tree m)) bs qs := by
  intro qs
  induction qs with
  | nil =>
    intro vars vm hv _ _ _
    unfold unpackBindings
    exact .return_ hv ⟨[], by simp, .nil⟩
  | cons b qs ih =>
    intro vars vm hv hreg hnodup hqs
    obtain ⟨name, value⟩ := b
    have hfresh : name ∉ vars.entries.map Prod.fst := by
      intro hmem
      have := (List.nodup_append.mp hnodup).2.2 name hmem name (by simp)
      exact this rfl
    have hentries : ∀ var, (vars.insert name var).entries = vars.entries ++ [(name, var)] :=
      fun var => NameMap.insertIn_of_notMem hfresh
    unfold unpackBindings
    refine (unpackOption_builds hv hreg (hqs (name, value) (by simp))).bind
      fun r vm₁ hgrow₁ hr => ?_
    refine (new_builds_plain hgrow₁.regular rfl (by decide)).bind fun var vm₂ hgrow₂ hvar => ?_
    have hnodup' : ((vars.insert name var).names ++ qs.map Prod.fst).Nodup := by
      simpa [NameMap.names, hentries] using hnodup
    have hrest := ih hgrow₂.regular (hgrow₂.registry.trans (hgrow₁.registry.trans hreg)) hnodup'
      fun b hb => hqs b (by simp [hb])
    refine hrest.imp fun vm₃ vars' hgrow₃ hbs => ?_
    obtain ⟨bs, hvars', hbs⟩ := hbs
    have hgrow := hgrow₁.trans hgrow₂
    refine ⟨(name, var) :: bs, by rw [hvars', hentries]; simp, .cons ⟨rfl, r, ?_, ?_⟩ ?_⟩
    · exact ((hvar.mono hgrow₁).made).imp (hgrow₃.payload (by rintro ⟨⟩)) id
    · exact optionRel_imp hr fun _ _ _ _ =>
        View.Tree.mono (made_mono (fun _ => id) (hgrow₂.trans hgrow₃)) (Nat.le_refl m)
    · have hle : made vm₂ vm₃ ≤ made vm vm₃ :=
        made_mono (fun _ => hgrow.contains) (.refl hgrow₃.regular)
      exact hbs.imp fun _ _ hb => hb.mono (.of_le hle) fun _ _ => View.Tree.mono hle (Nat.le_refl m)

theorem importOption_builds {name : Option String} (hv : vm.Regular)
    (hname : ∀ n ∈ name, (vm.registry.find? n).isSome = true) :
    Builds none vm (importOption name) fun vm' r => (made vm vm').Named r name := by
  cases name with
  | none => exact .return_ hv .none
  | some n =>
    refine (importModule_builds hv (hname n rfl)).bind fun r vm₁ hgrow hr => ?_
    obtain ⟨d, hd, hdname⟩ := hr
    exact .return_ hgrow.regular (.some ⟨d, ⟨hd, fun _ => trivial⟩, hdname⟩)

/-- The module and the code of a method; what they are made with does not matter later. -/
theorem code_builds {name : Option String} {unit : CodeUnit} (hv : vm.Regular)
    (hname : ∀ n ∈ name, (vm.registry.find? n).isSome = true) {β : Type}
    {f : Option Ref → Ref → Action β} {Q : Vm → β → Prop}
    (hf : ∀ module code vm', Grows none vm vm' → (made vm vm').Named module name →
      (made vm vm').Code code unit → Builds none vm' (f module code) Q) :
    Builds none vm (importOption name >>= fun module => loadCode unit >>= f module) Q := by
  refine (importOption_builds hv hname).bind fun module vm₁ hgrow₁ hmod => ?_
  refine (loadCode_builds unit hgrow₁.regular).bind fun code vm₂ hgrow₂ hcode => ?_
  obtain ⟨hfresh, c, hc, hunit⟩ := hcode
  have hnew : IsNew vm (.code c) vm₂ code := IsNew.mono hgrow₁ ⟨hfresh, hc⟩
  exact hf module code vm₂ (hgrow₁.trans hgrow₂)
    (hmod.mono (.of_le (made_mono (fun _ => id) hgrow₂))) ⟨c, hnew.made, hunit⟩

theorem unpackBody_builds {body : PackedBody} (hv : vm.Regular) (hreg : vm.registry = registry)
    (hbody : body.Faithful registry (Rebuilt registry m)) :
    Builds none vm (unpackBody body) fun vm' b =>
      (made vm vm').Body ((made vm vm').Tree m) b body ∧ b.CapturesOnce := by
  subst hreg
  cases body with
  | native f =>
    unfold unpackBody
    exact .return_ hv ⟨.native f, trivial⟩
  | bytecode unit name =>
    unfold unpackBody
    refine code_builds hv hbody fun module code vm₁ hgrow hmod hcode => ?_
    exact .return_ hgrow.regular ⟨.bytecode hcode hmod, trivial⟩
  | closure unit name qs =>
    unfold unpackBody
    obtain ⟨hname, hnodup, hsorted, hqs⟩ := hbody
    refine code_builds hv hname fun module code vm₁ hgrow₁ hmod hcode => ?_
    refine (unpackBindings_builds hgrow₁.regular hgrow₁.registry (by simpa [NameMap.names] using
      hnodup) hqs).bind fun vars vm₂ hgrow₂ hvars => ?_
    obtain ⟨bs, hentries, hbs⟩ := hvars
    have hentries : vars.entries = bs := hentries
    have hnames : bs.map Prod.fst = qs.map Prod.fst := View.Captured.names hbs
    have hkeep := made_mono (u := vm) (fun _ => id) hgrow₂
    have hle : made vm₁ vm₂ ≤ made vm vm₂ :=
      made_mono (fun _ => hgrow₁.contains) (.refl hgrow₂.regular)
    refine .return_ hgrow₂.regular ⟨?_, ?_⟩
    · rw [← NameMap.sortByName_of_sorted hsorted]
      refine .closure (hcode.mono (.of_le hkeep)) (hmod.mono (.of_le hkeep)) ?_
      rw [hentries]
      exact hbs.imp fun _ _ hb => hb.mono (.of_le hle) fun _ _ => View.Tree.mono hle (Nat.le_refl m)
    · show (vars.entries.map Prod.fst).Nodup
      rw [hentries, hnames]
      exact hnodup

/-! ### Hashes -/

theorem positionIn_none {cmp : Comparison} {key : Ref} : ∀ {keys : List Ref} (start : Nat),
    (∀ k ∈ keys, ∃ o, cmp k key = .ok o ∧ o ≠ some .eq) →
      positionIn cmp key start keys = .ok none := by
  intro keys
  induction keys with
  | nil => intro start _; rfl
  | cons k keys ih =>
    intro start hk
    obtain ⟨o, ho, hne⟩ := hk k (by simp)
    have hrest := ih (start + 1) fun l hl => hk l (by simp [hl])
    simp only [positionIn, ho, hrest]

theorem ofHeap_builds {α : Type} {y : Option Ref} {f : Heap → Except Fatal α} {a : α}
    (hv : vm.Regular) (hf : f vm.heap = .ok a) :
    Builds y vm (Action.ofHeap f) fun vm' r => vm' = vm ∧ r = a :=
  ⟨a, vm, by simp only [Action.ofHeap, hf], .refl hv, rfl, rfl⟩

/-- An entry whose key equals none of the keys comes at the end. -/
theorem hashSet_builds {t : HashTable} {key value : Ref} (hv : vm.Regular)
    (hx : vm.heap.payload x = .ok (.hash t))
    (hkey : ∀ k ∈ t.keys.toList, ∃ o, vm.heap.compare k key = .ok o ∧ o ≠ some .eq) :
    Builds (some x) vm (hashSet x key value) fun vm' _ =>
      vm'.heap.payload x = .ok (.hash ⟨t.entries.push (key, value)⟩) := by
  have hposition : vm.heap.position? t key = .ok none := positionIn_none 0 hkey
  unfold hashSet
  refine (ofHeap_builds hv hx).bind ?_
  rintro _ _ - ⟨rfl, rfl⟩
  refine (ofHeap_builds hv hposition).bind ?_
  rintro _ _ - ⟨rfl, rfl⟩
  have hfill : Heap.Refilled (.hash t) (.hash ⟨t.entries.push (key, value)⟩) := .hash _ _
  exact update_builds hv hx hfill

/-- What is made beside `x`. -/
def beside (vm vm' : Vm) (x : Ref) : View := fun r p => made vm vm' r p ∧ r ≠ x

theorem beside_made : beside u w x ≤ made u w := fun _ _ h => h.1

theorem beside_mono {y : Option Ref} (hvw : Grows y v w) (hy : y = none ∨ y = some x) :
    beside u v x ≤ beside u w x := by
  rintro r p ⟨⟨hp, hold⟩, hr⟩
  refine ⟨⟨hvw.payload ?_ hp, hold⟩, hr⟩
  rcases hy with rfl | rfl
  · nofun
  · intro heq
    exact hr (Option.some.inj heq).symm

/-- What is made while the hash `x` is there is made beside it. -/
theorem made_beside {t : HashTable} (huv : ∀ r, u.heap.contains r = true → v.heap.contains r = true)
    (hvv' : Grows none v v') (hx : v.heap.payload x = .ok (.hash t)) :
    made v v' ≤ beside u v' x := by
  rintro r p ⟨hp, hold⟩
  refine ⟨⟨hp, fun hr => hold (huv r hr)⟩, ?_⟩
  rintro rfl
  obtain ⟨k, hk⟩ := Heap.payload_eq_ok_iff.mp hx
  have hx' := hvv'.payload nofun hx
  rw [hp] at hx'
  cases hx'
  exact hold (Heap.contains_of_get hk)

/-- Old and new objects share only what has no identity of its own. -/
theorem agree_made {V : View} (hV : V ≤ v.heap.view) (hvw : Grows none v w) (m : Nat) :
    V.Agree (made v w) m := by
  intro k _ r p q hp hq
  cases k with
  | zero => exact hp.elim
  | succ k =>
    obtain ⟨o, ho, hp⟩ := hp
    obtain ⟨o', ⟨ho', hcommon⟩, hq⟩ := hq
    have hr := hV r o ho
    obtain ⟨c, hc⟩ := Heap.payload_eq_ok_iff.mp hr
    have hsame := hvw.payload nofun hr
    rw [ho'] at hsame
    cases hsame
    have hcommon := hcommon (Heap.contains_of_get hc)
    cases hp with
    | nil =>
      cases hq
      exact ⟨rfl, rfl⟩
    | bool b =>
      cases hq
      cases b <;> exact ⟨rfl, rfl⟩
    | _ => exact hcommon.elim

theorem unpackEntries_builds (hm : m ≤ maxCompareDepth + 1) (hx : u.heap.contains x = false) :
    ∀ {es done : List (Packed × Packed)} {t : HashTable} {vm : Vm}, vm.Regular →
    vm.registry = registry → (∀ r, u.heap.contains r = true → vm.heap.contains r = true) →
    vm.heap.payload x = .ok (.hash t) →
    List.Forall₂ (fun e q => (beside u vm x).Tree m e.1 q.1 ∧ (beside u vm x).Tree m e.2 q.2)
      t.entries.toList done →
    (∀ e ∈ es, Rebuilt registry m e.1 ∧ Rebuilt registry m e.2) →
    (done ++ es).Pairwise (fun e f => Packed.order m e.1 f.1 ≠ some .eq) →
    Builds (some x) vm (unpackEntries x es) fun vm' _ => ∃ t',
      vm'.heap.payload x = .ok (.hash t') ∧
        List.Forall₂ (fun e q => (made u vm').Tree m e.1 q.1 ∧ (made u vm').Tree m e.2 q.2)
          t'.entries.toList (done ++ es) := by
  intro es
  induction es with
  | nil =>
    intro done t vm hv _ _ hxt hdone _ _
    unfold unpackEntries
    refine .return_ hv ⟨t, hxt, ?_⟩
    rw [List.append_nil]
    exact hdone.imp fun _ _ he => ⟨he.1.mono beside_made (Nat.le_refl m),
      he.2.mono beside_made (Nat.le_refl m)⟩
  | cons e es ih =>
    intro done t vm hv hreg hu hxt hdone hes hapart
    obtain ⟨k, v⟩ := e
    obtain ⟨hk, hval⟩ := hes (k, v) (by simp)
    unfold unpackEntries
    refine (hk vm hv hreg).next fun key vm₁ hgrow₁ hkey => ?_
    refine (hval vm₁ hgrow₁.regular (hgrow₁.registry.trans hreg)).next
      fun value vm₂ hgrow₂ hvalue => ?_
    have hother : ∀ {r : Ref}, none ≠ some r := (Option.some_ne_none _).symm
    have hgrow := hgrow₁.trans hgrow₂
    have hreg₂ : vm₂.registry = registry := hgrow.registry.trans hreg
    have hxt₂ := hgrow.payload hother hxt
    -- the key finds no equal one, since its tree equals none of theirs
    have hapartKey : ∀ l ∈ t.keys.toList,
        ∃ o, vm₂.heap.compare l key = .ok o ∧ o ≠ some .eq := by
      intro l hl
      obtain ⟨⟨l', w⟩, hmem, rfl⟩ : ∃ f ∈ t.entries.toList, f.1 = l := by
        simpa [HashTable.keys] using hl
      obtain ⟨q, hq, hlq, -⟩ := forall₂_mem_left hdone hmem
      have hV : beside u vm x ≤ vm.heap.view := fun r p h => h.1.1
      have hV₂ : beside u vm x ≤ vm₂.heap.view := fun r p h => hgrow.payload hother h.1.1
      have hW₂ : made vm vm₁ ≤ vm₂.heap.view := fun r p h => hgrow₂.payload hother h.1
      have hregular := hgrow₂.regular.heap
      refine ⟨vm₂.heap.order m l' key, ?_, ?_⟩
      · rw [Heap.compare, hregular.nesting]
        exact Heap.compareWithin_eq_order hregular.toByKind (hlq.mono hV₂ (Nat.le_refl m))
          (hkey.mono hW₂ (Nat.le_refl m)) hm
      · rw [Heap.order_eq_tree hregular.toByKind hV₂ hW₂ (agree_made hV hgrow₁ m) hlq hkey]
        exact (List.pairwise_append.mp hapart).2.2 q hq (k, v) (by simp)
    refine (hashSet_builds hgrow₂.regular hxt₂ hapartKey).bind fun _ vm₃ hgrow₃ hxt₃ => ?_
    have hold : beside u vm x ≤ beside u vm₃ x :=
      le_trans (beside_mono hgrow (.inl rfl)) (beside_mono hgrow₃ (.inr rfl))
    have hnewKey : made vm vm₁ ≤ beside u vm₃ x :=
      le_trans (made_beside hu hgrow₁ hxt)
        (le_trans (beside_mono hgrow₂ (.inl rfl)) (beside_mono hgrow₃ (.inr rfl)))
    have hnewValue : made vm₁ vm₂ ≤ beside u vm₃ x :=
      le_trans (made_beside (fun r hr => hgrow₁.contains (hu r hr)) hgrow₂
        (hgrow₁.payload hother hxt)) (beside_mono hgrow₃ (.inr rfl))
    have hdone₃ : List.Forall₂
        (fun e q => (beside u vm₃ x).Tree m e.1 q.1 ∧ (beside u vm₃ x).Tree m e.2 q.2)
        (t.entries.push (key, value)).toList (done ++ [(k, v)]) := by
      rw [Array.toList_push]
      refine List.rel_append ?_ (.cons ⟨?_, ?_⟩ .nil)
      · exact hdone.imp fun _ _ he => ⟨he.1.mono hold (Nat.le_refl m),
          he.2.mono hold (Nat.le_refl m)⟩
      · exact hkey.mono hnewKey (Nat.le_refl m)
      · exact hvalue.mono hnewValue (Nat.le_refl m)
    have hu₃ : ∀ r, u.heap.contains r = true → vm₃.heap.contains r = true := by
      intro r hr
      obtain ⟨o, ho⟩ := Heap.contains_iff.mp (hgrow.contains (hu r hr))
      refine Heap.contains_of_get (hgrow₃.keeps r o ?_ ho)
      rintro ⟨rfl⟩
      rw [hx] at hr
      cases hr
    have hrest := ih hgrow₃.regular (hgrow₃.registry.trans hreg₂) hu₃ hxt₃ hdone₃
      (fun e he => hes e (by simp [he])) (by simpa using hapart)
    simpa using hrest

/-! ### Trees -/

theorem unpack_builds (registry : Registry) : ∀ {m : Nat}, m ≤ maxCompareDepth + 1 → ∀ {p : Packed},
    p.Faithful registry m → Rebuilt registry m p := by
  intro m
  induction m with
  | zero => intro _ p hp; exact hp.elim
  | succ m ih =>
    intro hm p hp vm hv hreg
    have hbelow : ∀ {q}, q.Faithful registry m → Rebuilt registry m q := ih (by omega)
    cases p with
    | nil =>
      unfold unpack
      exact ⟨_, vm, rfl, .refl hv, .nil, ⟨hv.heap.nilLive, fun _ => trivial⟩, .nil⟩
    | bool b =>
      unfold unpack
      exact ⟨_, vm, rfl, .refl hv, .bool b, ⟨hv.heap.boolLive b, fun _ => trivial⟩, .bool b⟩
    | int i =>
      unfold unpack
      exact (new_builds_plain hv rfl (by decide)).imp fun _ _ _ hr => ⟨_, hr.made, .int i⟩
    | float f =>
      unfold unpack
      exact (new_builds_plain hv rfl (by decide)).imp fun _ _ _ hr => ⟨_, hr.made, .float f⟩
    | str b =>
      unfold unpack
      exact (new_builds_plain hv rfl (by decide)).imp fun _ _ _ hr => ⟨_, hr.made, .str b⟩
    | task t =>
      unfold unpack
      exact (new_builds_plain hv rfl (by decide)).imp fun _ _ _ hr => ⟨_, hr.made, .task _⟩
    | array ps =>
      unfold unpack
      refine (unpackItems_builds hv hreg fun q hq => hbelow (hp q hq)).bind
        fun rs vm₁ hgrow₁ hrs => ?_
      refine (new_builds_plain hgrow₁.regular rfl (by decide)).imp fun vm₂ r hgrow₂ hr => ?_
      refine ⟨_, (hr.mono hgrow₁).made, .array ?_⟩
      rw [List.toList_toArray]
      exact hrs.imp fun _ _ => View.Tree.mono (made_mono (fun _ => id) hgrow₂) (Nat.le_refl m)
    | hash es =>
      unfold unpack
      obtain ⟨hes, hapart⟩ := hp
      refine (new_builds_plain hv rfl (by decide)).fill (fun _ _ hr => hr.1)
        fun x vm₁ hgrow₁ hx => ?_
      refine (unpackEntries_builds (by omega) hx.1 hgrow₁.regular (hgrow₁.registry.trans hreg)
        (fun _ => hgrow₁.contains) hx.2 .nil (fun e he => ⟨hbelow (hes e he).1,
          hbelow (hes e he).2⟩) hapart).bind fun _ vm₂ hgrow₂ ht => ?_
      obtain ⟨t, hxt, ht⟩ := ht
      have hxnew : made vm vm₂ x (.hash t) := IsNew.made ⟨hx.1, hxt⟩
      exact .return_ hgrow₂.regular ⟨_, hxnew, .hash ht⟩
    | error message cause backtrace =>
      unfold unpack
      refine (unpackOption_builds hv hreg fun q hq => hbelow (hp q hq)).bind
        fun r vm₁ hgrow₁ hcause => ?_
      refine (new_builds_plain hgrow₁.regular rfl (by decide)).imp fun vm₂ r hgrow₂ hr => ?_
      refine ⟨_, (hr.mono hgrow₁).made, .error ?_⟩
      exact optionRel_imp hcause fun _ _ _ _ =>
        View.Tree.mono (made_mono (fun _ => id) hgrow₂) (Nat.le_refl m)
    | method name body receiver =>
      unfold unpack
      obtain ⟨hbody, hrec⟩ := hp
      refine (unpackOption_builds hv hreg fun q hq => hbelow (hrec q hq)).bind
        fun r vm₁ hgrow₁ hr => ?_
      have hbody' : body.Faithful registry (Rebuilt registry m) := hbody.imp fun _ => hbelow
      refine (unpackBody_builds hgrow₁.regular (hgrow₁.registry.trans hreg) hbody').bind
        fun b vm₂ hgrow₂ hb => ?_
      refine (newMethod_builds _ _ hgrow₂.regular hb.2).imp fun vm₃ s hgrow₃ hs => ?_
      refine ⟨_, (hs.mono (hgrow₁.trans hgrow₂)).made, .method ?_ ?_⟩
      · have hle : made vm₁ vm₂ ≤ made vm vm₃ := made_mono (fun _ => hgrow₁.contains) hgrow₃
        exact hb.1.mono (.of_le hle) fun _ _ => View.Tree.mono hle (Nat.le_refl m)
      · exact optionRel_imp hr fun _ _ _ _ =>
          View.Tree.mono (made_mono (fun _ => id) (hgrow₂.trans hgrow₃)) (Nat.le_refl m)

end Vm
end ObjectMachine
