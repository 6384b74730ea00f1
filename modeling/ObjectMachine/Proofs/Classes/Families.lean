import ObjectMachine.Proofs.Host.Ancestry

/-!
# ObjectMachine.Proofs.Classes.Families

Which built-in class a class descends from, and that every object is of the kind of its class.

A class that a program makes takes over the display function of its super class and no other
function. So going up from it one meets made classes only, until one comes to a built-in class or
to a made class without super class. The built-in class, if there is one, is the class's family: it
decides which functions the class finds, and which payload its instances have.

* `Payload.family` — the built-in class whose constructor makes such a payload.
* `Heap.Family` — the family of a class.
* `Heap.Family.lineage` — the functions that a class finds are those of its family.
* `Heap.Family.isSubclass` — the built-in classes among its ancestors.
* `Heap.Classed` — every object is of the kind of its class.
* `Builtin.heritable` — the kinds of which there are instances of made classes.
* `Heap.Classed.place`, `Heap.Classed.update`, `Heap.Classed.remains` — new objects, other contents
  and collections leave it so.
-/

namespace ObjectMachine

/-- The built-in class whose instances, and those of the classes below it, have such a payload. -/
def Payload.family (p : Payload) : Builtin :=
  (Builtin.ofPayload? p).getD .object

theorem Payload.family_eq_cls {p : Payload} (hp : p.family = .cls) : ∃ c, p = .cls c := by
  cases p with
  | cls c => exact ⟨c, rfl⟩
  | _ => cases hp

/-- Whether the constructor of a built-in class makes instances of the classes below it. -/
def Builtin.heritable : Builtin → Bool
  | .object | .int | .float | .array | .hash => true
  | _ => false

/-- What a class of a family finds in the dispatch tables, if it has not filled the slot itself:
what the family's class has, or else what `Object` has. -/
def Builtin.inherited {α : Type} (pick : Slots → Option α) (family : Option Builtin) : Option α :=
  family.bind fun b => (pick b.slots).or (pick object.slots)

/-- The dispatch table of a class that is made below a class of a family. -/
def Builtin.seeded (family : Option Builtin) : Slots :=
  { str := family.bind fun b => b.slots.str }

/-- A slot that a new class does not take over. -/
def Slots.Chained {α : Type} (pick : Slots → Option α) : Prop :=
  ∀ str, pick { str := str } = none

namespace Heap

/-- The family of a class: the first built-in class that is met on the way up. -/
inductive Family (h : Heap) : Option Builtin → Ref → Prop where
  | builtin (b : Builtin) : Family h (some b) (b.ref h.id)
  | root {r : Ref} {c : Class} : h.cls r = .ok c → c.super = none → c.slots = {} → Family h none r
  | derived {f : Option Builtin} {r s : Ref} {c : Class} : h.cls r = .ok c → c.super = some s →
      c.slots = Builtin.seeded f → Family h f s → Family h f r

/-- Every class has a family, and every object has a payload of the kind of its class's family; only
objects of some kinds are instances of made classes. -/
structure Classed (h : Heap) : Prop where
  freeList : h.FreeList
  builtin : ∀ b : Builtin, ∃ c, h.cls (b.ref h.id) = .ok c ∧ c.slots = b.slots ∧
    c.super = b.super.map (·.ref h.id)
  classes : ∀ r c, h.cls r = .ok c → ∃ f, h.Family f r
  objects : ∀ r o, h.get r = .ok o → h.Family (some o.payload.family) o.cls
  plain : ∀ r o, h.get r = .ok o → o.payload.family.heritable = false →
    o.cls = o.payload.family.ref h.id

/-! ## What a family decides -/

section Family

variable {h h' : Heap} {f : Option Builtin} {r : Ref}

/-- The display function of a class is that of its family. -/
theorem Family.own (hh : h.Classed) (hf : h.Family f r) :
    ∃ c, h.cls r = .ok c ∧ c.slots.str = f.bind fun b => b.slots.str := by
  cases hf with
  | builtin b =>
    obtain ⟨c, hc, hslots, -⟩ := hh.builtin b
    exact ⟨c, hc, by rw [hslots]; rfl⟩
  | root hc _ hslots => exact ⟨_, hc, by rw [hslots]; rfl⟩
  | derived hc _ hslots _ => exact ⟨_, hc, by rw [hslots]; rfl⟩

/-- A built-in class is no made one: it has a constructor of its own. -/
theorem Classed.builtin_made (hh : h.Classed) (b : Builtin) {c : Class} {str : Option StrFn}
    (hc : h.cls (b.ref h.id) = .ok c) (hslots : c.slots = { str := str }) : False := by
  obtain ⟨d, hd, hb, -⟩ := hh.builtin b
  rw [hc] at hd
  cases hd
  have hinit : b.slots.init = none := by rw [← hb, hslots]
  cases b <;> cases hinit

theorem Family.unique {g : Option Builtin} (hh : h.Classed) (hf : h.Family f r)
    (hg : h.Family g r) : f = g := by
  induction hf with
  | builtin b =>
    generalize hr : b.ref h.id = r at hg
    cases hg with
    | builtin b' =>
      have hcell : b.cell = b'.cell := congrArg Ref.cell hr
      cases b <;> cases b' <;> first | rfl | cases hcell
    | root hc _ hslots => exact (hh.builtin_made b (hr ▸ hc) hslots).elim
    | derived hc _ hslots _ => exact (hh.builtin_made b (hr ▸ hc) hslots).elim
  | root hc hsuper hslots =>
    cases hg with
    | builtin b' => exact (hh.builtin_made b' hc hslots).elim
    | root _ _ _ => rfl
    | derived hc' hsuper' _ _ =>
      rw [hc] at hc'
      cases hc'
      rw [hsuper] at hsuper'
      cases hsuper'
  | derived hc hsuper hslots _ ih =>
    cases hg with
    | builtin b' => exact (hh.builtin_made b' hc hslots).elim
    | root hc' hsuper' _ =>
      rw [hc] at hc'
      cases hc'
      rw [hsuper] at hsuper'
      cases hsuper'
    | derived hc' hsuper' _ hg =>
      rw [hc] at hc'
      cases hc'
      rw [hsuper] at hsuper'
      cases hsuper'
      exact ih hg

/-- The chain of a built-in class: itself and `Object`. -/
theorem Classed.lineage_builtin (hh : h.Classed) (b : Builtin) :
    ∃ cs, h.Lineage (b.ref h.id) cs ∧ ∀ {α : Type} (pick : Slots → Option α),
      cs.findSome? (fun c => pick c.slots) = Builtin.inherited pick (some b) := by
  obtain ⟨o, ho, hoslots, hosuper⟩ := hh.builtin .object
  have hobject : h.Lineage (Builtin.object.ref h.id) [o] := .root ho hosuper
  obtain ⟨c, hc, hslots, hsuper⟩ := hh.builtin b
  by_cases hb : b = .object
  · subst hb
    refine ⟨[o], hobject, fun pick => ?_⟩
    simp [Builtin.inherited, hoslots]
  · have habove : b.super = some .object := by
      cases b <;> first | rfl | exact absurd rfl hb
    rw [habove] at hsuper
    refine ⟨[c, o], .step hc hsuper hobject, fun pick => ?_⟩
    simp only [Builtin.inherited, Option.bind_some, List.findSome?_cons, List.findSome?_nil,
      hslots, hoslots]
    cases pick b.slots <;> cases pick Builtin.object.slots <;> rfl

/-- The functions that a class finds along its chain are those of its family. -/
theorem Family.lineage (hh : h.Classed) (hf : h.Family f r) :
    ∃ cs, h.Lineage r cs ∧ ∀ {α : Type} (pick : Slots → Option α), Slots.Chained pick →
      cs.findSome? (fun c => pick c.slots) = Builtin.inherited pick f := by
  induction hf with
  | builtin b =>
    obtain ⟨cs, hl, hfind⟩ := hh.lineage_builtin b
    exact ⟨cs, hl, fun pick _ => hfind pick⟩
  | root hc hsuper hslots =>
    refine ⟨_, .root hc hsuper, fun pick hpick => ?_⟩
    have hnone : pick ({} : Slots) = none := hpick none
    simp [Builtin.inherited, hslots, hnone]
  | @derived f r s c hc hsuper hslots _ ih =>
    obtain ⟨cs, hl, hfind⟩ := ih
    refine ⟨_, .step hc hsuper hl, fun pick hpick => ?_⟩
    have hnone : pick c.slots = none := hslots ▸ hpick _
    rw [List.findSome?_cons, hnone]
    exact hfind pick hpick

theorem Family.findSlot (hh : h.Classed) (hf : h.Family f r) {α : Type} {pick : Slots → Option α}
    (hpick : Slots.Chained pick) : h.findSlot pick r = .ok (Builtin.inherited pick f) := by
  obtain ⟨cs, hl, hfind⟩ := hf.lineage hh
  rw [← hfind pick hpick]
  exact hl.findInChain

theorem Family.requireSlot (hh : h.Classed) (hf : h.Family f r) {α : Type}
    {pick : Slots → Option α} (hpick : Slots.Chained pick) (slot : Slot) {fn : α}
    (hfn : Builtin.inherited pick f = some fn) : h.requireSlot slot pick r = .ok fn := by
  unfold Heap.requireSlot
  rw [hf.findSlot hh hpick, hfn]
  rfl

/-- Where a function is found there is a class. -/
theorem cls_of_requireSlot {α : Type} {pick : Slots → Option α} {slot : Slot} {fn : α}
    (hfn : h.requireSlot slot pick r = .ok fn) : ∃ c, h.cls r = .ok c := by
  cases hc : h.cls r with
  | ok c => exact ⟨c, rfl⟩
  | error e =>
    have hfind : h.findSlot pick r = .error e := by
      simp [Heap.findSlot, Heap.findInChain, Heap.findFrom, hc]
    unfold Heap.requireSlot at hfn
    rw [hfind] at hfn
    cases hfn

/-- A class that finds a function belongs to a family that has it. -/
theorem Family.of_requireSlot (hh : h.Classed) (hf : h.Family f r) {α : Type}
    {pick : Slots → Option α} (hpick : Slots.Chained pick) {slot : Slot} {fn : α}
    (hfn : h.requireSlot slot pick r = .ok fn) : Builtin.inherited pick f = some fn := by
  unfold Heap.requireSlot at hfn
  rw [hf.findSlot hh hpick] at hfn
  cases hin : Builtin.inherited pick f with
  | some g =>
    rw [hin] at hfn
    cases hfn
    rfl
  | none =>
    rw [hin] at hfn
    obtain ⟨c, hc, -⟩ := hf.own hh
    have hthrow : (do let c ← h.cls r; throw (Fatal.missingSlot c.name slot) : Except Fatal α) =
        .ok fn := hfn
    rw [hc] at hthrow
    cases hthrow

/-- The built-in classes among the ancestors of a class: that of its family, and `Object`. -/
theorem Family.isSubclass (hh : h.Classed) (hf : h.Family f r) (b : Builtin) :
    h.isSubclass r (b.ref h.id) = .ok (f.any fun a => a == b || b == .object) := by
  have hne : ∀ {a : Builtin}, a ≠ b → a.ref h.id ≠ b.ref h.id := fun {a} hab heq => by
    have hcell : a.cell = b.cell := congrArg Ref.cell heq
    cases a <;> cases b <;> first | exact hab rfl | cases hcell
  suffices hwalk : ∃ path, h.Ascent r path ∧
      decide (b.ref h.id ∈ path.map Prod.fst) = f.any fun a => a == b || b == .object by
    obtain ⟨path, ha, hmem⟩ := hwalk
    rw [ha.isSubclass, hmem]
  induction hf with
  | builtin a =>
    obtain ⟨o, ho, -, hosuper⟩ := hh.builtin .object
    obtain ⟨c, hc, -, hsuper⟩ := hh.builtin a
    by_cases ha : a = .object
    · subst ha
      refine ⟨_, .root ho hosuper, ?_⟩
      by_cases hb : b = .object
      · subst hb
        simp
      · simp [hb, Ne.symm hb, (hne (Ne.symm hb)).symm]
    · have habove : a.super = some .object := by
        cases a <;> first | rfl | exact absurd rfl ha
      rw [habove] at hsuper
      refine ⟨_, .step hc hsuper (.root ho hosuper), ?_⟩
      by_cases hb : b = .object
      · subst hb
        simp
      · by_cases hab : a = b
        · subst hab
          simp
        · simp [hb, hab, (hne hab).symm, (hne (Ne.symm hb)).symm]
  | @root r c hc hsuper hslots =>
    refine ⟨_, .root hc hsuper, ?_⟩
    have hr : b.ref h.id ≠ r := by
      rintro rfl
      exact hh.builtin_made b hc hslots
    simp [hr]
  | @derived f r s c hc hsuper hslots _ ih =>
    obtain ⟨path, ha, hmem⟩ := ih
    refine ⟨_, .step hc hsuper ha, ?_⟩
    have hr : b.ref h.id ≠ r := by
      rintro rfl
      exact hh.builtin_made b hc hslots
    rw [← hmem]
    simp [hr]

/-- A class below `Object` has a family. -/
theorem Family.of_isSubclass (hh : h.Classed) (hf : h.Family f r)
    (hsub : h.isSubclass r (Builtin.object.ref h.id) = .ok true) : ∃ b, f = some b := by
  rw [hf.isSubclass hh] at hsub
  cases f with
  | none => cases hsub
  | some b => exact ⟨b, rfl⟩

/-- A class keeps its family where the classes above it are kept. -/
theorem Family.carry (hid : h'.id = h.id) {P : Ref → Prop}
    (hkeep : ∀ x c, P x → h.cls x = .ok c → ∃ d, h'.cls x = .ok d ∧ d.super = c.super ∧
      d.slots = c.slots ∧ ∀ s, c.super = some s → P s) (hf : h.Family f r) (hr : P r) :
    h'.Family f r := by
  induction hf with
  | builtin b =>
    rw [← hid]
    exact .builtin b
  | root hc hsuper hslots =>
    obtain ⟨d, hd, hsuper', hslots', -⟩ := hkeep _ _ hr hc
    exact .root hd (hsuper'.trans hsuper) (hslots'.trans hslots)
  | derived hc hsuper hslots _ ih =>
    obtain ⟨d, hd, hsuper', hslots', hs⟩ := hkeep _ _ hr hc
    exact .derived hd (hsuper'.trans hsuper) (hslots'.trans hslots) (ih (hs _ hsuper))

theorem Family.mono (hid : h'.id = h.id) (hkeep : h.KeepsClasses h') (hf : h.Family f r) :
    h'.Family f r := by
  refine hf.carry hid (P := fun _ => True) (fun x c _ hc => ?_) trivial
  obtain ⟨d, hd, hsuper, hslots⟩ := hkeep x c hc
  exact ⟨d, hd, hsuper, hslots, fun _ _ => trivial⟩

/-- A class that finds a constructor belongs to a family, whose constructor it is. -/
theorem Classed.of_init (hh : h.Classed) {fn : InitFn}
    (hfn : h.requireSlot .init Slots.init r = .ok fn) :
    ∃ b : Builtin, h.Family (some b) r ∧ b.slots.init = some fn := by
  obtain ⟨c, hc⟩ := cls_of_requireSlot hfn
  obtain ⟨f, hf⟩ := hh.classes r c hc
  have hin := hf.of_requireSlot hh (show Slots.Chained Slots.init from fun _ => rfl) hfn
  cases f with
  | none => cases hin
  | some b =>
    refine ⟨b, hf, ?_⟩
    rw [← hin]
    cases b <;> rfl

end Family

/-! ## What keeps objects of the kinds of their classes -/

namespace Classed

variable {h h' : Heap} {k : Ref} {p : Payload}

/-- A new object of the kind of its class. A new class has the display function of its super
class. -/
theorem place (hh : h.Classed) (hk : h.Family (some p.family) k)
    (hplain : p.family.heritable = false → k = p.family.ref h.id)
    (hcls : ∀ c, p = .cls c → c.super = none ∧ c.slots = {} ∨
      ∃ s d, c.super = some s ∧ h.cls s = .ok d ∧ c.slots = { str := d.slots.str }) :
    (h.place ⟨k, p⟩).2.Classed := by
  have hf := hh.freeList
  have hkeep := place_keepsClasses hf ⟨k, p⟩
  have hmono := fun {f r} (hfam : h.Family f r) => hfam.mono (place_id h ⟨k, p⟩) hkeep
  refine ⟨place_freeList hf _, fun b => ?_, fun r c hc => ?_, fun r o ho => ?_, fun r o ho => ?_⟩
  · obtain ⟨c, hc, hslots, hsuper⟩ := hh.builtin b
    obtain ⟨d, hd, hsuper', hslots'⟩ := hkeep _ c hc
    rw [place_id]
    exact ⟨d, hd, hslots'.trans hslots, hsuper'.trans hsuper⟩
  · obtain ⟨k', hg⟩ := cls_eq_ok.mp hc
    rcases get_place_cases hf ⟨k, p⟩ hg with ⟨-, heq⟩ | hg
    · obtain ⟨-, heq⟩ := Obj.mk.inj heq
      rcases hcls c heq.symm with ⟨hsuper, hslots⟩ | ⟨s, d, hsuper, hd, hslots⟩
      · exact ⟨none, .root hc hsuper hslots⟩
      · obtain ⟨f, hfam⟩ := hh.classes s d hd
        obtain ⟨d', hd', hstr⟩ := hfam.own hh
        rw [hd] at hd'
        cases hd'
        exact ⟨f, .derived hc hsuper (hslots.trans (by rw [hstr]; rfl)) (hmono hfam)⟩
    · obtain ⟨f, hfam⟩ := hh.classes r c (cls_eq_ok.mpr ⟨k', hg⟩)
      exact ⟨f, hmono hfam⟩
  · rcases get_place_cases hf ⟨k, p⟩ ho with ⟨-, rfl⟩ | ho
    · exact hmono hk
    · exact hmono (hh.objects r o ho)
  · rw [place_id]
    rcases get_place_cases hf ⟨k, p⟩ ho with ⟨-, rfl⟩ | ho
    · exact hplain
    · exact hh.plain r o ho

/-- Other contents of the same kind. -/
theorem update (hh : h.Classed) (r : Ref) {f : Payload → Payload} (hf : Payload.Mild f)
    (hfamily : ∀ p, (f p).family = p.family) : (h.update r f).Classed := by
  have hkeep := update_keepsClasses (h := h) (r := r) hf
  have hmono : ∀ {g x}, h.Family g x → (h.update r f).Family g x := fun hfam =>
    hfam.mono (h := h) rfl hkeep
  have hsame : ∀ {x o'}, (h.update r f).get x = .ok o' → ∃ o, h.get x = .ok o ∧ o'.cls = o.cls ∧
      o'.payload.family = o.payload.family := fun ho' => by
    obtain ⟨o, ho, hcls, hp⟩ := get_update_cases ho'
    refine ⟨o, ho, hcls, ?_⟩
    rcases hp with hp | ⟨-, hp⟩
    · rw [hp]
    · rw [hp, hfamily]
  refine ⟨update_freeList hh.freeList r f, fun b => ?_, fun x d hd => ?_, fun x o' ho' => ?_,
    fun x o' ho' => ?_⟩
  · obtain ⟨c, hc, hslots, hsuper⟩ := hh.builtin b
    obtain ⟨d, hd, hsuper', hslots'⟩ := hkeep _ c hc
    exact ⟨d, hd, hslots'.trans hslots, hsuper'.trans hsuper⟩
  · obtain ⟨c, hc, -⟩ := update_cls_cases hf hd
    obtain ⟨g, hfam⟩ := hh.classes x c hc
    exact ⟨g, hmono hfam⟩
  · obtain ⟨o, ho, hcls, hp⟩ := hsame ho'
    rw [hcls, hp]
    exact hmono (hh.objects x o ho)
  · obtain ⟨o, ho, hcls, hp⟩ := hsame ho'
    rw [hcls, hp]
    exact hh.plain x o ho

/-- What a collection leaves, if nothing that is left dangles. -/
theorem remains (hh : h.Classed) (hr : h.Remains h') (hs : h'.Sound) : h'.Classed := by
  have hback : ∀ {x c}, h'.cls x = .ok c → h.cls x = .ok c := fun {x c} hc => by
    obtain ⟨k, hk⟩ := cls_eq_ok.mp hc
    exact cls_eq_ok.mpr ⟨k, hr.get x _ hk⟩
  -- the super class of a class that is left is left
  have hcarry : ∀ {f x}, h.Family f x → (∃ c, h'.cls x = .ok c) → h'.Family f x := by
    intro f x hfam hx
    refine hfam.carry hr.id (P := fun x => ∃ c, h'.cls x = .ok c) (fun x c hx hc => ?_) hx
    obtain ⟨d, hd⟩ := hx
    obtain rfl : d = c := Except.ok.inj ((hback hd).symm.trans hc)
    refine ⟨d, hd, rfl, rfl, fun s hsuper => ?_⟩
    obtain ⟨cs, hl⟩ := hs.lineage x d hd
    cases hl with
    | root hd' hnone =>
      rw [hd] at hd'
      cases hd'
      rw [hsuper] at hnone
      cases hnone
    | step hd' hsuper' hl =>
      rw [hd] at hd'
      cases hd'
      rw [hsuper] at hsuper'
      cases hsuper'
      obtain ⟨e, _, -, he⟩ := hl.head
      exact ⟨e, he⟩
  refine ⟨hs.freeList, fun b => ?_, fun x c hc => ?_, fun x o ho => ?_, fun x o ho => ?_⟩
  · obtain ⟨c, hc, hslots⟩ := hs.builtin b
    obtain ⟨d, hd, -, hsuper⟩ := hh.builtin b
    rw [← hr.id, hback hc] at hd
    cases hd
    exact ⟨c, hc, hslots, hr.id ▸ hsuper⟩
  · obtain ⟨f, hfam⟩ := hh.classes x c (hback hc)
    exact ⟨f, hcarry hfam ⟨c, hc⟩⟩
  · exact hcarry (hh.objects x o (hr.get x o ho)) (hs.traces x o ho).cls
  · rw [hr.id]
    exact hh.plain x o (hr.get x o ho)

/-- Other permanent roots make no difference. -/
theorem withRoots (hh : h.Classed) (roots : List Ref) :
    Classed { h with roots := roots } := by
  have hmono : ∀ {g x}, h.Family g x → Family { h with roots := roots } g x := fun hfam =>
    hfam.mono (h := h) rfl fun x c hc => ⟨c, hc, rfl, rfl⟩
  refine ⟨⟨hh.freeList.empty, hh.freeList.nodup⟩, hh.builtin, fun x c hc => ?_, fun x o ho => ?_,
    hh.plain⟩
  · obtain ⟨f, hfam⟩ := hh.classes x c hc
    exact ⟨f, hmono hfam⟩
  · exact hmono (hh.objects x o ho)

/-- In a new heap there are the built-in classes, the one nil and the two truth values. -/
theorem boot (id : Nat) (config : Config) : (Heap.boot id config).Classed := by
  have hid := boot_id id config
  have hbuiltin : ∀ b : Builtin, (Heap.boot id config).Family (some b) (b.ref id) := fun b => by
    have hb := Family.builtin (h := Heap.boot id config) b
    rwa [hid] at hb
  refine ⟨(boot_sound id config).freeList, fun b => ?_, fun r c hc => ?_, fun r o ho => ?_,
    fun r o ho _ => ?_⟩
  · rw [hid]
    exact ⟨_, cls_boot b, rfl, rfl⟩
  · obtain ⟨b, rfl, -⟩ := boot_cls_cases hc
    exact ⟨_, hbuiltin b⟩
  · rcases boot_cases ho with ⟨b, -, rfl⟩ | ⟨-, rfl⟩ | ⟨b, -, rfl⟩
    · exact hbuiltin .cls
    · exact hbuiltin .nil
    · exact hbuiltin .bool
  · rw [hid]
    rcases boot_cases ho with ⟨b, -, rfl⟩ | ⟨-, rfl⟩ | ⟨b, -, rfl⟩ <;> rfl

end Classed
end Heap
end ObjectMachine
