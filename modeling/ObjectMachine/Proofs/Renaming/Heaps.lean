import ObjectMachine.Proofs.Heap.Sound
import ObjectMachine.Proofs.Renaming.Payloads
import Mathlib.Logic.Relator

/-!
# ObjectMachine.Proofs.Renaming.Heaps

Heaps that are the same up to the names of some of their objects.

Objects that no pair of the renaming mentions may be different in the two heaps, and there may be
more of them in one: they are the garbage that only one of the heaps still holds.

* `Heap.Paired` — the renaming pairs off objects with the same contents.
* `Heap.Related` — so it does in two sound heaps, and the built-in objects stand for each other.
* `Heap.Related.place`, `Heap.Related.update` — the same change on both sides.
* `Heap.Related.survivors` — a collection on one side.
-/

namespace ObjectMachine

structure Obj.Related (ρ : Renaming) (o p : Obj) : Prop where
  cls : ρ o.cls p.cls
  payload : o.payload.Related ρ p.payload

theorem Obj.Related.mono {ρ σ : Renaming} {o p : Obj} (h : o.Related ρ p) (hσ : ρ ≤ σ) :
    o.Related σ p :=
  ⟨hσ _ _ h.cls, h.payload.mono hσ⟩

namespace Heap

variable {ρ σ : Renaming} {h h' : Heap}

/-- Each object that `ρ` mentions has one partner, with the same contents up to `ρ`. -/
structure Paired (ρ : Renaming) (h h' : Heap) : Prop where
  unique : Relator.BiUnique ρ
  objects : ∀ a b, ρ a b → ∃ o p, h.get a = .ok o ∧ h'.get b = .ok p ∧ o.Related ρ p

structure Related (ρ : Renaming) (h h' : Heap) : Prop extends Paired ρ h h' where
  builtin : ∀ k : Builtin, ρ (k.ref h.id) (k.ref h'.id)
  nil : ρ (nilRef h.id) (nilRef h'.id)
  bool : ∀ b, ρ (boolRef h.id b) (boolRef h'.id b)
  left : h.Sound
  right : h'.Sound
  nesting : h.nesting = h'.nesting

namespace Related

variable {a b : Ref}

theorem get (hr : h.Related ρ h') (hab : ρ a b) :
    ∃ o p, h.get a = .ok o ∧ h'.get b = .ok p ∧ o.Related ρ p :=
  hr.objects a b hab

theorem live_left (hr : h.Related ρ h') (hab : ρ a b) : h.contains a = true := by
  obtain ⟨o, -, ho, -⟩ := hr.get hab
  exact contains_of_get ho

theorem live_right (hr : h.Related ρ h') (hab : ρ a b) : h'.contains b = true := by
  obtain ⟨-, p, -, hp, -⟩ := hr.get hab
  exact contains_of_get hp

theorem eq_iff (hr : h.Related ρ h') {c d : Ref} (hab : ρ a b) (hcd : ρ c d) : a = c ↔ b = d := by
  constructor
  · rintro rfl
    exact hr.unique.2 hab hcd
  · rintro rfl
    exact hr.unique.1 hab hcd

/-- What stands for a class is a class. -/
theorem cls_eq_ok (hr : h.Related ρ h') (hab : ρ a b) {c : Class} (hc : h.cls a = .ok c) :
    ∃ d, h'.cls b = .ok d ∧ c.Related ρ d := by
  obtain ⟨k, hg⟩ := Heap.cls_eq_ok.mp hc
  obtain ⟨o, ⟨k', p⟩, ho, hp, hop⟩ := hr.get hab
  rw [hg] at ho
  cases ho
  obtain ⟨-, hpay⟩ := hop
  cases hpay with
  | cls hcd => exact ⟨_, Heap.cls_eq_ok.mpr ⟨k', hp⟩, hcd⟩

theorem lineage (hr : h.Related ρ h') {cs : List Class} (hl : h.Lineage a cs) (hab : ρ a b) :
    ∃ ds, h'.Lineage b ds ∧ List.Forall₂ (Class.Related ρ) cs ds := by
  induction hl generalizing b with
  | root hc hsup =>
    obtain ⟨d, hd, hcd⟩ := hr.cls_eq_ok hab hc
    have hsup' := hcd.super
    rw [hsup] at hsup'
    cases hd' : d.super with
    | none => exact ⟨[d], .root hd hd', .cons hcd .nil⟩
    | some s => rw [hd'] at hsup'; cases hsup'
  | step hc hsup _ ih =>
    obtain ⟨d, hd, hcd⟩ := hr.cls_eq_ok hab hc
    have hsup' := hcd.super
    rw [hsup] at hsup'
    cases hd' : d.super with
    | none => rw [hd'] at hsup'; cases hsup'
    | some s =>
      rw [hd'] at hsup'
      cases hsup' with
      | some hs =>
        obtain ⟨ds, hl', hds⟩ := ih hs
        exact ⟨d :: ds, .step hd hd' hl', .cons hcd hds⟩

/-! ## New objects -/

theorem admits (hr : h.Related ρ h') {k k' : Ref} {p p' : Payload} (hk : ρ k k')
    (hp : p.Related ρ p') (ha : h.Admits k p) : h'.Admits k' p' := by
  refine ⟨?_, ?_, ?_⟩
  · obtain ⟨cs, hl, hmark⟩ := ha.traces
    obtain ⟨ds, hl', hds⟩ := hr.lineage hl hk
    refine ⟨ds, hl', fun f hf => ?_⟩
    obtain ⟨c, hc, hm⟩ := hmark f (hp.markFn?.trans hf)
    obtain ⟨d, hd, hcd⟩ := forall₂_mem_left hds hc
    exact ⟨d, hd, hcd.slots ▸ hm⟩
  · intro s hs
    obtain ⟨r, -, hrs⟩ := forall₂_mem_right hp.refs hs
    exact hr.live_right hrs
  · rintro d rfl
    cases hp with
    | @cls c _ hcd =>
      obtain ⟨hstd, hsup⟩ := ha.cls c rfl
      refine ⟨hcd.slots ▸ hstd, fun s hs => ?_⟩
      have hrel := hcd.super
      rw [hs] at hrel
      cases hc : c.super with
      | none => rw [hc] at hrel; cases hrel
      | some r =>
        rw [hc] at hrel
        cases hrel with
        | some hrs =>
          obtain ⟨e, he⟩ := hsup r hc
          obtain ⟨e', he', -⟩ := hr.cls_eq_ok hrs he
          exact ⟨e', he'⟩

end Related

/-- A renaming with one more pair. -/
def extend (ρ : Renaming) (a b : Ref) : Renaming :=
  fun x y => ρ x y ∨ x = a ∧ y = b

theorem le_extend (ρ : Renaming) (a b : Ref) : ρ ≤ extend ρ a b :=
  fun _ _ hxy => .inl hxy

theorem Related.place (hr : h.Related ρ h') {k k' : Ref} {p p' : Payload} (hk : ρ k k')
    (hp : p.Related ρ p') (ha : h.Admits k p) :
    (h.place ⟨k, p⟩).2.Related (extend ρ (h.place ⟨k, p⟩).1 (h'.place ⟨k', p'⟩).1)
      (h'.place ⟨k', p'⟩).2 := by
  have hf := hr.left.freeList
  have hf' := hr.right.freeList
  have hle := le_extend ρ (h.place ⟨k, p⟩).1 (h'.place ⟨k', p'⟩).1
  have hfresh : ∀ {x y}, ρ x y → x ≠ (h.place ⟨k, p⟩).1 := by
    rintro x y hxy rfl
    have := place_fresh hf ⟨k, p⟩
    rw [hr.live_left hxy] at this
    cases this
  have hfresh' : ∀ {x y}, ρ x y → y ≠ (h'.place ⟨k', p'⟩).1 := by
    rintro x y hxy rfl
    have := place_fresh hf' ⟨k', p'⟩
    rw [hr.live_right hxy] at this
    cases this
  refine { unique := ⟨?_, ?_⟩, objects := ?_, builtin := ?_, nil := ?_, bool := ?_,
           left := hr.left.place ha, right := hr.right.place (hr.admits hk hp ha), nesting := ?_ }
  · rintro x z y (hxy | ⟨rfl, rfl⟩) (hzy | ⟨rfl, hy⟩)
    · exact hr.unique.1 hxy hzy
    · exact absurd hy (hfresh' hxy)
    · exact absurd rfl (hfresh' hzy)
    · rfl
  · rintro x y z (hxy | ⟨rfl, rfl⟩) (hxz | ⟨hx, rfl⟩)
    · exact hr.unique.2 hxy hxz
    · exact absurd hx (hfresh hxy)
    · exact absurd rfl (hfresh hxz)
    · rfl
  · rintro x y (hxy | ⟨rfl, rfl⟩)
    · obtain ⟨o, q, ho, hq, hoq⟩ := hr.get hxy
      exact ⟨o, q, get_place_of_get hf _ ho, get_place_of_get hf' _ hq, hoq.mono hle⟩
    · refine ⟨⟨k, p⟩, ⟨k', p'⟩, ?_, ?_, ⟨hle _ _ hk, hp.mono hle⟩⟩
      · rw [get_place hf, if_pos rfl]
      · rw [get_place hf', if_pos rfl]
  · intro b
    rw [place_id, place_id]
    exact hle _ _ (hr.builtin b)
  · rw [place_id, place_id]
    exact hle _ _ hr.nil
  · intro b
    rw [place_id, place_id]
    exact hle _ _ (hr.bool b)
  · rw [place_nesting, place_nesting]
    exact hr.nesting

/-! ## Other contents -/

theorem Related.update (hr : h.Related ρ h') {a b : Ref} (hab : ρ a b) {f g : Payload → Payload}
    (hf : Payload.Mild f) (hg : Payload.Mild g)
    (hfg : ∀ p q, p.Related ρ q → (f p).Related ρ (g q)) :
    (h.update a f).Related ρ (h'.update b g) := by
  obtain ⟨o, p, ho, hp, hop⟩ := hr.get hab
  have hrefs := (hfg _ _ hop.payload).refs
  refine { unique := hr.unique, objects := ?_, builtin := hr.builtin, nil := hr.nil,
           bool := hr.bool, left := hr.left.update hf ho ?_, right := hr.right.update hg hp ?_,
           nesting := hr.nesting }
  · intro x y hxy
    obtain ⟨o', p', ho', hp', hop'⟩ := hr.get hxy
    refine ⟨_, _, get_update_of_get ho', get_update_of_get hp', ?_⟩
    by_cases hx : a = x
    · have hy : b = y := (hr.eq_iff hab hxy).mp hx
      rw [if_pos (congrArg Ref.cell hx), if_pos (congrArg Ref.cell hy)]
      exact ⟨hop'.cls, hfg _ _ hop'.payload⟩
    · have hy : ¬ b = y := fun hy => hx ((hr.eq_iff hab hxy).mpr hy)
      rw [if_neg, if_neg]
      · exact hop'
      · exact fun hc => hy (eq_of_cell_eq (hr.live_right hab) (hr.live_right hxy) hc)
      · exact fun hc => hx (eq_of_cell_eq (hr.live_left hab) (hr.live_left hxy) hc)
  · intro s hs
    obtain ⟨s', -, hss⟩ := forall₂_mem_left hrefs hs
    exact hr.live_left hss
  · intro s hs
    obtain ⟨s', -, hss⟩ := forall₂_mem_right hrefs hs
    exact hr.live_right hss

/-! ## Collections -/

/-- What is left of a heap: some of its objects, as they were. -/
structure Remains (h h₁ : Heap) : Prop where
  id : h₁.id = h.id
  nesting : h₁.nesting = h.nesting
  get : ∀ r o, h₁.get r = .ok o → h.get r = .ok o

theorem Remains.refl (h : Heap) : h.Remains h :=
  ⟨rfl, rfl, fun _ _ ho => ho⟩

theorem KeepsReachable.remains {h₁ : Heap} {roots : List Ref} (hk : h.KeepsReachable roots h₁)
    (hframe : h.SameFrame h₁) : h.Remains h₁ :=
  ⟨hframe.id, hframe.nesting, fun r o ho => ((hk r o).mp ho).1⟩

/-- The pairs of objects that are left on both sides. -/
def survivors (ρ : Renaming) (h h' : Heap) : Renaming :=
  fun a b => ρ a b ∧ h.contains a = true ∧ h'.contains b = true

/-- What is left of each of two related heaps is related. -/
theorem Related.survivors {h₁ h₁' : Heap} (hr : h.Related ρ h') (hl : h.Remains h₁)
    (hr' : h'.Remains h₁') (hs : h₁.Sound) (hs' : h₁'.Sound) :
    h₁.Related (survivors ρ h₁ h₁') h₁' := by
  have hperm : ∀ {a b}, ρ a b → a ∈ permanentRoots h₁.id → b ∈ permanentRoots h₁'.id →
      Heap.survivors ρ h₁ h₁' a b :=
    fun hab ha hb => ⟨hab, hs.permanent_live ha, hs'.permanent_live hb⟩
  refine { unique := ⟨?_, ?_⟩, objects := ?_, builtin := ?_, nil := ?_, bool := ?_,
           left := hs, right := hs', nesting := ?_ }
  · exact fun _ _ _ hab hcb => hr.unique.1 hab.1 hcb.1
  · exact fun _ _ _ hab hac => hr.unique.2 hab.1 hac.1
  · rintro a b ⟨hab, ha, hb⟩
    obtain ⟨o, ho⟩ := contains_iff.mp ha
    obtain ⟨p, hp⟩ := contains_iff.mp hb
    obtain ⟨o', p', ho', hp', hop⟩ := hr.get hab
    rw [hl.get a o ho] at ho'
    rw [hr'.get b p hp] at hp'
    cases ho'
    cases hp'
    -- what an object that is left holds is left too
    refine ⟨o, p, ho, hp, ⟨hop.cls, (hs.closed a o ho).1, (hs'.closed b p hp).1⟩, ?_⟩
    exact hop.payload.imp fun x hx y hy hxy =>
      ⟨hxy, (hs.closed a o ho).2 x hx, (hs'.closed b p hp).2 y hy⟩
  · intro k
    refine hperm (hl.id ▸ hr'.id ▸ hr.builtin k) ?_ ?_ <;>
      cases k <;> simp [permanentRoots, Builtin.registered]
  · exact hperm (hl.id ▸ hr'.id ▸ hr.nil) (by simp [permanentRoots]) (by simp [permanentRoots])
  · intro b
    refine hperm (hl.id ▸ hr'.id ▸ hr.bool b) ?_ ?_ <;> cases b <;> simp [permanentRoots]
  · rw [hl.nesting, hr'.nesting, hr.nesting]

end Heap
end ObjectMachine
