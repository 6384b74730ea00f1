import ObjectMachine.Proofs.Classes.Endings
import ObjectMachine.Proofs.Copying.Trees

/-!
# ObjectMachine.Proofs.Copying.Sendable

Which values can be sent to another task.

Packing follows the references of a value and counts the levels. It knows nothing of the shape of
the graph: what it accepts is said here by the paths of the graph alone.

* `Heap.Inside`, `Heap.Component`, `Heap.Descends` — one step into a value, and the paths made of
  such steps.
* `Heap.Sendable` — the kinds of objects that may be sent.
* `Heap.Wired` — methods refer to code, modules and variables.
* `Heap.PacksIff` — a part of packing, and the condition on which it succeeds.
* `Heap.packWithin_packsIff` — packing within some levels, by induction on them.
* `Vm.pack_accepts_iff` — packing accepts the values whose paths are all short and meet nothing that
  cannot be sent, and refuses all others.
-/

namespace ObjectMachine

def Payload.sendable : Payload → Bool
  | .object _ | .cls _ | .code _ | .frame _ | .module _ | .var _ => false
  | _ => true

namespace Heap

/-! ## Paths -/

/-- What an object with the contents directly contains, as packing sees it: captured variables stand
for their values. -/
inductive Inside (h : Heap) : Payload → Ref → Prop where
  | item {items : Array Ref} {s : Ref} : s ∈ items → Inside h (.array items) s
  | key {t : HashTable} {s : Ref} : s ∈ t.keys → Inside h (.hash t) s
  | value {t : HashTable} {s : Ref} : s ∈ t.values → Inside h (.hash t) s
  | cause {e : ErrorInfo} {s : Ref} : e.cause = some s → Inside h (.error e) s
  | receiver {m : Method} {s : Ref} : m.receiver = some s → Inside h (.method m) s
  | captured {m : Method} {code s : Ref} {module : Option Ref} {bindings : NameMap Ref}
      {b : String × Ref} : m.body = .closure code module bindings → b ∈ bindings.entries →
      h.payload b.2 = .ok (.var (some s)) → Inside h (.method m) s

/-- `r` directly contains `s`. -/
def Component (h : Heap) (r s : Ref) : Prop :=
  ∃ p, h.payload r = .ok p ∧ h.Inside p s

/-- `s` lies `n` levels below `r`, on some path. -/
inductive Descends (h : Heap) : Nat → Ref → Ref → Prop where
  | refl (r : Ref) : Descends h 0 r r
  | step {n : Nat} {r s t : Ref} : h.Component r s → Descends h n s t → Descends h (n + 1) r t

theorem component_iff {h : Heap} {r s : Ref} {p : Payload} (hr : h.payload r = .ok p) :
    h.Component r s ↔ h.Inside p s := by
  simp [Component, hr]

theorem Descends.trans {h : Heap} {m n : Nat} {r s t : Ref} (hrs : h.Descends m r s)
    (hst : h.Descends n s t) : h.Descends (m + n) r t := by
  induction hrs with
  | refl r => rwa [Nat.zero_add]
  | step hc _ ih =>
    rw [Nat.add_right_comm]
    exact .step hc (ih hst)

/-- What comes back to itself does so on paths of any length. -/
theorem Descends.rounds {h : Heap} {n : Nat} {r : Ref} (hloop : h.Descends n r r) (k : Nat) :
    h.Descends (k * n) r r := by
  induction k with
  | zero =>
    rw [Nat.zero_mul]
    exact .refl r
  | succ k ih =>
    rw [Nat.succ_mul]
    exact ih.trans hloop

/-- Instances of user classes, and what belongs to the machinery of a task, stay with the task. -/
def Sendable (h : Heap) (r : Ref) : Prop :=
  ∃ p, h.payload r = .ok p ∧ p.sendable = true

/-- The code of a method is code, its module a module, and what it captures variables. Only what the
embedding program makes by hand can be otherwise (`Session.wired`). -/
structure Wired (h : Heap) : Prop where
  code : ∀ r m x, h.payload r = .ok (.method m) → m.body.code? = some x →
    ∃ c, h.payload x = .ok (.code c)
  module : ∀ r m x, h.payload r = .ok (.method m) → m.body.module? = some x →
    ∃ d, h.payload x = .ok (.module d)
  captured : ∀ r m code module bindings, h.payload r = .ok (.method m) →
    m.body = .closure code module bindings → ∀ b ∈ bindings.entries,
      ∃ x, h.payload b.2 = .ok (.var x)

/-- All paths from `r` are shorter than `levels`, and everything on them may be sent. -/
def FitsIn (h : Heap) (levels : Nat) (r : Ref) : Prop :=
  ∀ n s, h.Descends n r s → n < levels ∧ h.Sendable s

theorem fitsIn_succ {h : Heap} {levels : Nat} {r : Ref} :
    h.FitsIn (levels + 1) r ↔ h.Sendable r ∧ ∀ s, h.Component r s → h.FitsIn levels s := by
  constructor
  · intro hr
    refine ⟨(hr 0 r (.refl r)).2, fun s hs n t ht => ?_⟩
    obtain ⟨hn, hsend⟩ := hr (n + 1) t (.step hs ht)
    exact ⟨by omega, hsend⟩
  · rintro ⟨hsend, hcomp⟩ n t ht
    cases ht with
    | refl => exact ⟨Nat.succ_pos levels, hsend⟩
    | step hc ht =>
      obtain ⟨hn, ht⟩ := hcomp _ hc _ t ht
      exact ⟨by omega, ht⟩

/-! ## Parts of packing -/

/-- The part of packing succeeds on the condition, and refuses the value otherwise. -/
def PacksIff {α : Type} (x : Except Stop α) (P : Prop) : Prop :=
  (∃ a, x = .ok a) ∧ P ∨ (∃ e, x = .error (.raised (.pack e))) ∧ ¬ P

namespace PacksIff

variable {α β : Type} {x : Except Stop α} {f : α → Except Stop β} {P Q : Prop}

theorem ok (a : α) : PacksIff (.ok a) True :=
  .inl ⟨⟨a, rfl⟩, trivial⟩

theorem refused (e : PackError) : PacksIff (.error (.raised (.pack e)) : Except Stop α) False :=
  .inr ⟨⟨e, rfl⟩, not_false⟩

theorem congr (h : PacksIff x P) (hPQ : P ↔ Q) : PacksIff x Q := by
  rwa [← propext hPQ]

/-- One part after the other: both conditions have to hold. -/
theorem bind (hx : PacksIff x P) (hf : ∀ a, PacksIff (f a) Q) : PacksIff (x >>= f) (P ∧ Q) := by
  rcases hx with ⟨⟨a, rfl⟩, hP⟩ | ⟨⟨e, rfl⟩, hP⟩
  · exact (hf a).congr ⟨fun hQ => ⟨hP, hQ⟩, And.right⟩
  · exact .inr ⟨⟨e, rfl⟩, fun h => hP h.1⟩

/-- A part without condition after one with a condition. -/
theorem map (hx : PacksIff x P) (hf : ∀ a, ∃ b, f a = .ok b) : PacksIff (x >>= f) P :=
  (hx.bind fun a => .inl ⟨hf a, trivial⟩).congr (and_iff_left trivial)

/-- A question to the heap that has an answer. -/
theorem asking {q : Except Fatal α} {a : α} (hq : q = .ok a) (hf : PacksIff (f a) Q) :
    PacksIff (Heap.asking q >>= f) Q := by
  subst hq
  exact hf

end PacksIff

section Parts

variable {h : Heap} {pack : Packer} {F : Ref → Prop}

theorem packItems_packsIff : ∀ {rs : List Ref}, (∀ r ∈ rs, PacksIff (pack r) (F r)) →
    PacksIff (packItems pack rs) (∀ r ∈ rs, F r) := by
  intro rs
  induction rs with
  | nil => exact fun _ => (PacksIff.ok []).congr (by simp)
  | cons r rest ih =>
    intro hpack
    rw [List.forall_mem_cons] at hpack
    refine (hpack.1.bind fun p => (ih hpack.2).map fun ps => ⟨_, rfl⟩).congr ?_
    exact (List.forall_mem_cons (p := F)).symm

theorem packEntries_packsIff : ∀ {es : List (Ref × Ref)},
    (∀ e ∈ es, PacksIff (pack e.1) (F e.1) ∧ PacksIff (pack e.2) (F e.2)) →
    PacksIff (packEntries pack es) (∀ e ∈ es, F e.1 ∧ F e.2) := by
  intro es
  induction es with
  | nil => exact fun _ => (PacksIff.ok []).congr (by simp)
  | cons e rest ih =>
    intro hpack
    obtain ⟨⟨hkey, hvalue⟩, hrest⟩ := List.forall_mem_cons.mp hpack
    refine (hkey.bind fun k => hvalue.bind fun v => (ih hrest).map fun ps => ⟨_, rfl⟩).congr ?_
    rw [List.forall_mem_cons, and_assoc]

theorem packOption_packsIff {r : Option Ref} (hpack : ∀ s, r = some s → PacksIff (pack s) (F s)) :
    PacksIff (packOption pack r) (∀ s, r = some s → F s) := by
  cases r with
  | none => exact (PacksIff.ok none).congr (by simp)
  | some s => exact ((hpack s rfl).map fun p => ⟨_, rfl⟩).congr (by simp)

/-- The values of captured variables. -/
theorem packBindings_packsIff : ∀ {bs : List (String × Ref)},
    (∀ b ∈ bs, ∃ x, h.payload b.2 = .ok (.var x)) →
    (∀ b ∈ bs, ∀ s, h.payload b.2 = .ok (.var (some s)) → PacksIff (pack s) (F s)) →
    PacksIff (packBindings h pack bs)
      (∀ b ∈ bs, ∀ s, h.payload b.2 = .ok (.var (some s)) → F s) := by
  intro bs
  induction bs with
  | nil => exact fun _ _ => (PacksIff.ok []).congr (by simp)
  | cons b rest ih =>
    intro hvars hpack
    obtain ⟨⟨x, hx⟩, hvars⟩ := List.forall_mem_cons.mp hvars
    rw [List.forall_mem_cons] at hpack
    have hsome : ∀ s, h.payload b.2 = .ok (.var (some s)) ↔ x = some s := by simp [hx]
    have hfirst : PacksIff (packOption pack x)
        (∀ s, h.payload b.2 = .ok (.var (some s)) → F s) := by
      simp only [hsome] at hpack ⊢
      exact packOption_packsIff hpack.1
    refine PacksIff.congr ?_ List.forall_mem_cons.symm
    refine .asking hx ?_
    exact hfirst.bind fun p => (ih hvars hpack.2).map fun ps => ⟨_, rfl⟩

end Parts

/-! ## Packing -/

section Packing

variable {h : Heap}

theorem Wired.unitOf (hw : h.Wired) {r code : Ref} {m : Method}
    (hm : h.payload r = .ok (.method m)) (hcode : m.body.code? = some code) :
    ∃ unit, h.unitOf code = .ok unit := by
  obtain ⟨c, hc⟩ := hw.code r m code hm hcode
  exact ⟨c.unit, unitOf_eq_ok.mpr ⟨c, hc, rfl⟩⟩

theorem Wired.moduleNameOf (hw : h.Wired) {r : Ref} {m : Method}
    (hm : h.payload r = .ok (.method m)) : ∃ name, h.moduleNameOf m.body.module? = .ok name := by
  cases hmodule : m.body.module? with
  | none => exact ⟨none, rfl⟩
  | some x =>
    obtain ⟨d, hd⟩ := hw.module r m x hm hmodule
    exact ⟨some d.name, moduleNameOf_eq_ok.mpr (.some ⟨d, hd, rfl⟩)⟩

/-- The body of a method holds up packing only by what it captures. -/
theorem packBody_packsIff (hw : h.Wired) {pack : Packer} {F : Ref → Prop} {r : Ref} {m : Method}
    (hm : h.payload r = .ok (.method m))
    (hpack : ∀ s, h.Inside (.method m) s → PacksIff (pack s) (F s)) :
    PacksIff (h.packBody pack m.body) (∀ code module bindings,
      m.body = .closure code module bindings → ∀ b ∈ bindings.entries, ∀ s,
        h.payload b.2 = .ok (.var (some s)) → F s) := by
  have hunit : ∀ code, m.body.code? = some code → ∃ unit, h.unitOf code = .ok unit :=
    fun code => hw.unitOf hm
  have hmodule := hw.moduleNameOf hm
  cases hbody : m.body with
  | native f => exact (PacksIff.ok _).congr (by simp)
  | bytecode code module =>
    rw [hbody] at hunit hmodule
    obtain ⟨unit, hunit⟩ := hunit code rfl
    obtain ⟨name, hmodule⟩ := hmodule
    have hrun : h.packBody pack (.bytecode code module) = .ok (.bytecode unit name) :=
      except_bind_eq_ok.mpr ⟨unit, hunit, except_bind_eq_ok.mpr ⟨name, hmodule, rfl⟩⟩
    rw [hrun]
    exact (PacksIff.ok _).congr (by simp)
  | closure code module bindings =>
    rw [hbody] at hunit hmodule
    obtain ⟨unit, hunit⟩ := hunit code rfl
    obtain ⟨name, hmodule⟩ := hmodule
    have hcaptured : PacksIff (packBindings h pack bindings.entries)
        (∀ b ∈ bindings.entries, ∀ s, h.payload b.2 = .ok (.var (some s)) → F s) :=
      packBindings_packsIff (hw.captured r m code module bindings hm hbody)
        fun b hb s hs => hpack s (.captured hbody hb hs)
    refine (hcaptured.map fun ps => ?_).congr (by simp)
    exact ⟨_, except_bind_eq_ok.mpr ⟨unit, hunit, except_bind_eq_ok.mpr ⟨name, hmodule, rfl⟩⟩⟩

/-- What lies inside live objects is there. -/
theorem Closed.inside_live (hc : h.Closed) {r s : Ref} {p : Payload} (hp : h.payload r = .ok p)
    (hs : h.Inside p s) : h.contains s = true := by
  cases hs with
  | item hs | key hs | value hs | cause hs | receiver hs =>
    exact hc.refs_live hp (by simp [Payload.refs, Payload.markFn?, MarkFn.targets, hs])
  | captured _ _ hvar =>
    exact hc.refs_live hvar (by simp [Payload.refs, Payload.markFn?, MarkFn.targets])

/-- The contents of an object, one level. -/
theorem packContents_packsIff (hs : h.Sound) (hw : h.Wired) {r : Ref} {p : Payload}
    (hp : h.payload r = .ok p) {levels : Nat} {F : Ref → Prop}
    (hpack : ∀ s, h.Inside p s → PacksIff (h.packWithin levels s) (F s)) :
    PacksIff (h.packWithin (levels + 1) r) (p.sendable = true ∧ ∀ s, h.Inside p s → F s) := by
  unfold packWithin
  refine .asking hp ?_
  cases p with
  | nil | bool _ | int _ | float _ | str _ | task _ =>
    refine (PacksIff.ok _).congr ⟨fun _ => ⟨rfl, ?_⟩, fun _ => trivial⟩
    rintro s ⟨⟩
  | object | cls | code | frame | module | var =>
    obtain ⟨c, hc⟩ := hs.className (contains_of_payload hp)
    refine .asking hc ((PacksIff.refused (.unsendable c)).congr ⟨False.elim, fun h => ?_⟩)
    cases h.1
  | array items =>
    have hitems : PacksIff (packItems (h.packWithin levels) items.toList)
        (∀ s ∈ items.toList, F s) :=
      packItems_packsIff fun s hs => hpack s (.item (Array.mem_toList_iff.mp hs))
    refine (hitems.map fun ps => ⟨_, rfl⟩).congr ⟨fun h => ⟨rfl, ?_⟩, fun h s hs => ?_⟩
    · rintro s (hs | _)
      exact h s (Array.mem_toList_iff.mpr hs)
    · exact h.2 s (.item (Array.mem_toList_iff.mp hs))
  | hash t =>
    have hkey : ∀ e ∈ t.entries.toList, h.Inside (.hash t) e.1 := fun e he =>
      .key (Array.mem_map_of_mem (Array.mem_toList_iff.mp he))
    have hvalue : ∀ e ∈ t.entries.toList, h.Inside (.hash t) e.2 := fun e he =>
      .value (Array.mem_map_of_mem (Array.mem_toList_iff.mp he))
    have hentries : PacksIff (packEntries (h.packWithin levels) t.entries.toList)
        (∀ e ∈ t.entries.toList, F e.1 ∧ F e.2) :=
      packEntries_packsIff fun e he => ⟨hpack _ (hkey e he), hpack _ (hvalue e he)⟩
    refine (hentries.map fun ps => ⟨_, rfl⟩).congr ⟨fun h => ⟨rfl, ?_⟩, fun h e he => ?_⟩
    · rintro s (_ | hs | hs)
      · obtain ⟨e, he, rfl⟩ := Array.mem_map.mp hs
        exact (h e (Array.mem_toList_iff.mpr he)).1
      · obtain ⟨e, he, rfl⟩ := Array.mem_map.mp hs
        exact (h e (Array.mem_toList_iff.mpr he)).2
    · exact ⟨h.2 _ (hkey e he), h.2 _ (hvalue e he)⟩
  | error e =>
    have hcause := packOption_packsIff (r := e.cause) (F := F) fun s hs => hpack s (.cause hs)
    refine (hcause.map fun c => ⟨_, rfl⟩).congr ⟨fun h => ⟨rfl, ?_⟩, fun h s hs => ?_⟩
    · rintro s (_ | _ | _ | hs)
      exact h s hs
    · exact h.2 s (.cause hs)
  | method m =>
    have hreceiver := packOption_packsIff (r := m.receiver) (F := F)
      fun s hs => hpack s (.receiver hs)
    have hbody := packBody_packsIff hw hp hpack
    refine (hreceiver.bind fun x => hbody.map fun b => ⟨_, rfl⟩).congr ⟨fun h => ⟨rfl, ?_⟩, ?_⟩
    · rintro s (_ | _ | _ | _ | hs | ⟨hm, hb, hs⟩)
      · exact h.1 s hs
      · exact h.2 _ _ _ hm _ hb s hs
    · exact fun h => ⟨fun s hs => h.2 s (.receiver hs),
        fun _ _ _ hm b hb s hs => h.2 s (.captured hm hb hs)⟩

/-- Packing within some levels succeeds exactly if all paths are shorter and meet sendable objects
only. By induction on the levels: at each object one of them is used up, whatever the kind of the
edge that leads on. -/
theorem packWithin_packsIff (hs : h.Sound) (hw : h.Wired) : ∀ (levels : Nat) {r : Ref},
    h.contains r = true → PacksIff (h.packWithin levels r) (h.FitsIn levels r) := by
  intro levels
  induction levels with
  | zero =>
    intro r _
    exact (PacksIff.refused .tooDeep).congr
      ⟨False.elim, fun hr => Nat.not_lt_zero 0 (hr 0 r (.refl r)).1⟩
  | succ levels ih =>
    intro r hr
    obtain ⟨p, hp⟩ := Sound.payload hr
    have hcontents : PacksIff (h.packWithin (levels + 1) r)
        (p.sendable = true ∧ ∀ s, h.Inside p s → h.FitsIn levels s) :=
      packContents_packsIff hs hw hp fun s hs' => ih (hs.closed.inside_live hp hs')
    refine hcontents.congr ?_
    simp only [fitsIn_succ, component_iff hp, Sendable, hp, Except.ok.injEq, exists_eq_left']

end Packing

end Heap

namespace Vm

/-- Packing accepts exactly the finite trees of sendable values: it leaves the task as it is, and
succeeds if and only if every path into the value has 256 steps at most and meets no instance of a
user class, class, code, frame, module or variable. What contains itself is refused. -/
theorem pack_accepts_iff (vm : Vm) (v : Ref) (hs : vm.heap.Sound) (hw : vm.heap.Wired)
    (hv : vm.heap.contains v = true) :
    ((∃ p, pack v vm = .ok p vm) ∨ ∃ e, pack v vm = .error (.raised (.pack e)) vm) ∧
    ((∃ p, pack v vm = .ok p vm) ↔
      ∀ n w, vm.heap.Descends n v w → n ≤ 256 ∧ vm.heap.Sendable w) ∧
    ∀ n, vm.heap.Descends (n + 1) v v → ∃ e, pack v vm = .error (.raised (.pack e)) vm := by
  have hfits : vm.heap.FitsIn (maxPackDepth + 1) v ↔
      ∀ n w, vm.heap.Descends n v w → n ≤ 256 ∧ vm.heap.Sendable w := by
    simp only [Heap.FitsIn, Nat.lt_succ_iff, maxPackDepth]
  rcases Heap.packWithin_packsIff hs hw (maxPackDepth + 1) hv with ⟨⟨p, hp⟩, hfit⟩ | ⟨⟨e, he⟩, hfit⟩
  · have hrun : pack v vm = .ok p vm := by simp only [pack, Heap.pack, hp]
    refine ⟨.inl ⟨p, hrun⟩, ⟨fun _ => hfits.mp hfit, fun _ => ⟨p, hrun⟩⟩, fun n hloop => ?_⟩
    have hlong := (hfits.mp hfit _ v (hloop.rounds 257)).1
    omega
  · have hrun : pack v vm = .error (.raised (.pack e)) vm := by simp only [pack, Heap.pack, he]
    refine ⟨.inr ⟨e, hrun⟩, ⟨fun h => ?_, fun h => absurd (hfits.mpr h) hfit⟩, fun _ _ => ⟨e, hrun⟩⟩
    obtain ⟨p, hp⟩ := h
    rw [hrun] at hp
    cases hp

/-- A new task with a closure that captures itself. -/
def knotted : Vm :=
  let code := (Heap.boot 0 {}).placeBuiltin .code (.code ⟨{}, #[]⟩)
  let var := code.2.placeBuiltin .var (.var none)
  let closure := var.2.placeBuiltin .method
    (.method { name := "f", body := .closure code.1 none ⟨[("f", var.1)]⟩ })
  { heap := closure.2.update var.1 (Payload.setValue closure.1)
    task := ⟨0, 0⟩
    config := {}
    registry := {} }

/-- The closure. -/
def knot : Ref := ⟨0, 21, 0⟩

theorem knotted_sound : knotted.heap.Sound := by
  have hplace : ∀ {h : Heap} {k : Builtin} {p : Payload}, h.Sound →
      Builtin.ofPayload? p = some k → (∀ s ∈ p.refs, h.contains s = true) → k ≠ .cls →
      (h.placeBuiltin k p).2.Sound := by
    rintro h k p hs hk hrefs hcls
    refine hs.place (hs.admits_builtin hk hrefs ?_)
    rintro c rfl
    exact absurd (Option.some.inj hk).symm hcls
  refine Heap.Sound.update ?_ (Payload.mild_setValue _) (r := ⟨0, 20, 0⟩) rfl (by decide +kernel)
  refine hplace ?_ rfl (by decide +kernel) nofun
  refine hplace ?_ rfl (by decide +kernel) nofun
  exact hplace (Heap.boot_sound 0 {}) rfl (by decide +kernel) nofun

/-- There is no other method. -/
theorem payload_knot {r : Ref} {m : Method} (hm : knotted.heap.payload r = .ok (.method m)) :
    m = { name := "f", body := .closure ⟨0, 19, 0⟩ none ⟨[("f", ⟨0, 20, 0⟩)]⟩ } := by
  have hboot := (Heap.boot_sound 0 {}).freeList
  have hcode := Heap.place_freeList hboot ⟨Builtin.code.ref 0, .code ⟨{}, #[]⟩⟩
  have hvar := Heap.place_freeList hcode ⟨Builtin.var.ref 0, .var none⟩
  obtain ⟨p, hp, hpm⟩ := Heap.payload_update_cases hm
  obtain rfl : p = .method m := by
    rcases hpm with heq | heq
    · exact heq.symm
    · cases p <;> cases heq
      rfl
  rcases Heap.payload_place_cases hvar hp with ⟨-, heq⟩ | hp
  · cases heq
    rfl
  rcases Heap.payload_place_cases hcode hp with ⟨-, heq⟩ | hp
  · cases heq
  rcases Heap.payload_place_cases hboot hp with ⟨-, heq⟩ | hp
  · cases heq
  obtain ⟨k, hk⟩ := Heap.payload_eq_ok_iff.mp hp
  rcases Heap.boot_cases hk with ⟨_, -, heq⟩ | ⟨-, heq⟩ | ⟨_, -, heq⟩ <;> cases heq

theorem knotted_wired : knotted.heap.Wired where
  code r m x hm hx := by
    rw [payload_knot hm] at hx
    cases hx
    exact ⟨_, rfl⟩
  module r m x hm hx := by
    rw [payload_knot hm] at hx
    cases hx
  captured r m code module bindings hm hbody b hb := by
    rw [payload_knot hm] at hbody
    cases hbody
    obtain rfl := List.mem_singleton.mp hb
    exact ⟨_, rfl⟩

/-- The closure is refused. -/
theorem pack_refuses_knot :
    knotted.heap.Sound ∧ knotted.heap.Wired ∧ knotted.heap.contains knot = true ∧
    knotted.heap.Descends 1 knot knot ∧
    ∃ e, pack knot knotted = .error (.raised (.pack e)) knotted := by
  have hlive : knotted.heap.contains knot = true := rfl
  have hloop : knotted.heap.Descends 1 knot knot :=
    .step ⟨_, rfl, .captured rfl (List.mem_singleton.mpr rfl) rfl⟩ (.refl knot)
  exact ⟨knotted_sound, knotted_wired, hlive, hloop,
    (pack_accepts_iff knotted knot knotted_sound knotted_wired hlive).2.2 0 hloop⟩

end Vm
end ObjectMachine
