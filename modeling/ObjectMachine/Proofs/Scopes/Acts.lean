import ObjectMachine.Proofs.Scopes.Bodies
import ObjectMachine.Proofs.Scopes.Catalogue
import ObjectMachine.Proofs.Scopes.Reads

/-!
# ObjectMachine.Proofs.Scopes.Acts

What actions do to the objects that are there, to the names of variables, to constants, to the
bodies of methods and to the module table.

Most actions only add objects, and what they add never changes the name of a variable. Few actions
change an object, and those change it in one of a handful of ways.

* `Payload.Changes` — what the instructions and native functions can make of a payload.
* `Heap.Denotes`, `Heap.Loads` — an object is what a constant or a unit stands for.
* `Vm.Proceeds`, `Vm.Works` — what may become of a task, given what may become of payloads.
* `Acts`, `Adds` — the actions that do no more than that. The instances follow the definitions.
* `Vm.Yields` — the same of an action whose result matters.
-/

namespace ObjectMachine

open ObjectMachine.Action

/-! ## Payloads -/

/-- The kinds of payloads that nothing ever changes. -/
def Payload.Fixed : Payload → Prop
  | .nil | .bool _ | .int _ | .float _ | .str _ | .method _ | .code _ | .frame _ | .task _
  | .error _ => True
  | _ => False

/-- What one step can make of a payload: an item is put at the end of an array or taken from there,
a hash gets another value for a key or another entry at its end, a module gains a name, a class gets
a method, and a variable gets a value. -/
inductive Payload.Changes (assigned : Prop) : Payload → Payload → Prop where
  | same (p : Payload) : Changes assigned p p
  | push (items : Array Ref) (x : Ref) : Changes assigned (.array items) (.array (items.push x))
  | pop (items : Array Ref) : Changes assigned (.array items) (.array items.pop)
  | replace (t : HashTable) (i : Nat) (value : Ref) :
      Changes assigned (.hash t) (.hash ⟨t.entries.modify i fun e => (e.1, value)⟩)
  | append (t : HashTable) (key value : Ref) :
      Changes assigned (.hash t) (.hash ⟨t.entries.push (key, value)⟩)
  | name {m : Module} {name : String} (x : Ref) : m.locals.find? name = none →
      Changes assigned (.module m) (.module { m with locals := m.locals.insert name x })
  | define (c : Class) (name : String) (m : Ref) :
      Changes assigned (.cls c) (.cls { c with methods := c.methods.insert name m })
  | value (x : Option Ref) (y : Ref) : assigned → Changes assigned (.var x) (.var (some y))

namespace Payload

variable {A B : Prop} {p q : Payload}

theorem Becomes.eq_of_fixed (h : p.Becomes A q) (hp : p.Fixed) : q = p := by
  cases h with
  | same => rfl
  | _ => cases hp

theorem Becomes.eq_of_fixed_right (h : p.Becomes A q) (hq : q.Fixed) : q = p := by
  cases h with
  | same => rfl
  | _ => cases hq

theorem Becomes.eq_of_either (h : p.Becomes A q) (hpq : p.Fixed ∨ q.Fixed) : q = p :=
  hpq.elim h.eq_of_fixed h.eq_of_fixed_right

namespace Changes

theorem imp (h : p.Changes A q) (hAB : A → B) : p.Changes B q := by
  cases h with
  | same => exact .same p
  | push items x => exact .push items x
  | pop items => exact .pop items
  | replace t i value => exact .replace t i value
  | append t key value => exact .append t key value
  | name x hnew => exact .name x hnew
  | define c name m => exact .define c name m
  | value x y hA => exact .value x y (hAB hA)

theorem becomes (h : p.Changes A q) : p.Becomes A q := by
  cases h with
  | same => exact .same p
  | push items x => exact .array ..
  | pop items => exact .array ..
  | replace t i value => exact .hash ..
  | append t key value => exact .hash ..
  | @name m name x hnew =>
    refine .addLocal (fun d hd => ?_) x
    cases hd
    exact hnew
  | define c name m => exact .cls rfl rfl rfl rfl
  | value x y hA => exact .var x y hA

theorem addMethod (name : String) (m : Ref) (p : Payload) : p.Changes A (p.addMethod name m) := by
  cases p with
  | cls c => exact .define c name m
  | _ => exact .same _

/-- What is not a container, a class, a module or a variable stays as it is. -/
theorem eq_of_fixed (h : p.Changes A q) (hp : p.Fixed ∨ ∃ slots, p = .object slots) : q = p := by
  rcases hp with hp | ⟨slots, rfl⟩
  · exact h.becomes.eq_of_fixed hp
  · cases h with
    | same => rfl

end Changes
end Payload

/-- Only modules have names. -/
theorem Payload.addLocal_eq {p : Payload} {name : String} {x : Ref}
    (hp : p.Fixed ∨ (p.addLocal name x).Fixed) : p.addLocal name x = p := by
  cases p with
  | module m => rcases hp with hp | hp <;> cases hp
  | _ => rfl

/-- What may become of a payload: at least nothing, and nothing unheard of. -/
class Gentle (R : Payload → Payload → Prop) : Prop where
  refl : ∀ p, R p p
  becomes : ∀ p q, R p q → p.Becomes True q

namespace Gentle

instance eq : Gentle Eq where
  refl _ := rfl
  becomes p _ h := h ▸ .same p

instance changes (A : Prop) : Gentle (Payload.Changes A) where
  refl := .same
  becomes _ _ h := h.becomes.imp fun _ => trivial

instance becomes_ (A : Prop) : Gentle (Payload.Becomes A) where
  refl := .same
  becomes _ _ h := h.imp fun _ => trivial

end Gentle

/-! ## Constants -/

mutual

/-- An object is what a constant stands for. -/
def Heap.Denotes (h : Heap) : Constant → Ref → Prop
  | .nil, r => r = nilRef h.id
  | .int i, r => h.payload r = .ok (.int i)
  | .float x, r => h.payload r = .ok (.float x)
  | .str s, r => h.payload r = .ok (.str s.toUTF8)
  | .code u, r => h.Loads u r

/-- An object is a loaded unit: its constants are what those of the unit stand for. -/
def Heap.Loads (h : Heap) : CodeUnit → Ref → Prop
  | ⟨name, code, consts, names, locals, freevars, arity⟩, r => ∃ refs : Array Ref,
    h.payload r = .ok (.code ⟨⟨name, code, consts, names, locals, freevars, arity⟩, refs⟩) ∧
      h.DenoteAll consts refs.toList

def Heap.DenoteAll (h : Heap) : List Constant → List Ref → Prop
  | [], [] => True
  | c :: cs, r :: rs => h.Denotes c r ∧ h.DenoteAll cs rs
  | _, _ => False

end

namespace Heap

variable {h h' : Heap}

theorem loads_iff {u : CodeUnit} {r : Ref} :
    h.Loads u r ↔ ∃ refs : Array Ref, h.payload r = .ok (.code ⟨u, refs⟩) ∧
      h.DenoteAll u.consts refs.toList := by
  cases u
  simp only [Loads]

theorem Loads.isCode {u : CodeUnit} {r : Ref} (hr : h.Loads u r) : h.IsCode r := by
  obtain ⟨refs, hrefs, -⟩ := loads_iff.mp hr
  exact ⟨_, hrefs⟩

/-- The constant at an index is denoted by the object at that index. -/
theorem DenoteAll.getElem? {cs : List Constant} {rs : List Ref} (hd : h.DenoteAll cs rs) {i : Nat}
    {c : Constant} (hc : cs[i]? = some c) : ∃ r, rs[i]? = some r ∧ h.Denotes c r := by
  induction cs generalizing rs i with
  | nil => cases hc
  | cons d cs ih =>
    cases rs with
    | nil =>
      simp only [DenoteAll] at hd
    | cons r rs =>
      simp only [DenoteAll] at hd
      cases i with
      | zero =>
        simp only [List.getElem?_cons_zero, Option.some.injEq] at hc
        exact ⟨r, rfl, hc ▸ hd.1⟩
      | succ i => exact ih hd.2 hc

/-- The objects for which `P` holds stay as they are if they can be constants, and `P` holds of the
constants of code for which it holds. -/
structure Preserves (P : Ref → Prop) (h h' : Heap) : Prop where
  id : h'.id = h.id
  payload : ∀ r p, P r → p.Fixed → h.payload r = .ok p → h'.payload r = .ok p
  consts : ∀ r c, P r → h.payload r = .ok (.code c) → ∀ s ∈ c.consts.toList, P s

mutual

/-- Objects that stay as they are denote what they denoted. -/
theorem Denotes.keep {P : Ref → Prop} (hk : h.Preserves P h') : ∀ (c : Constant) {r : Ref}, P r →
    h.Denotes c r → h'.Denotes c r
  | .nil, r, _, hd => by
    simp only [Denotes] at hd ⊢
    rw [hd, hk.id]
  | .int _, r, hr, hd => by
    simp only [Denotes] at hd ⊢
    exact hk.payload r _ hr trivial hd
  | .float _, r, hr, hd => by
    simp only [Denotes] at hd ⊢
    exact hk.payload r _ hr trivial hd
  | .str _, r, hr, hd => by
    simp only [Denotes] at hd ⊢
    exact hk.payload r _ hr trivial hd
  | .code u, r, hr, hd => by
    simp only [Denotes] at hd ⊢
    exact Loads.keep hk u hr hd

theorem Loads.keep {P : Ref → Prop} (hk : h.Preserves P h') : ∀ (u : CodeUnit) {r : Ref}, P r →
    h.Loads u r → h'.Loads u r
  | ⟨name, code, consts, names, locals, freevars, arity⟩, r, hr, hd => by
    simp only [Loads] at hd ⊢
    obtain ⟨refs, hrefs, hall⟩ := hd
    exact ⟨refs, hk.payload r _ hr trivial hrefs,
      DenoteAll.keep hk consts (hk.consts r _ hr hrefs) hall⟩

theorem DenoteAll.keep {P : Ref → Prop} (hk : h.Preserves P h') : ∀ (cs : List Constant)
    {rs : List Ref}, (∀ s ∈ rs, P s) → h.DenoteAll cs rs → h'.DenoteAll cs rs
  | [], [], _, _ => by simp only [DenoteAll]
  | c :: cs, r :: rs, hrs, hd => by
    simp only [DenoteAll] at hd ⊢
    exact ⟨Denotes.keep hk c (hrs r List.mem_cons_self) hd.1,
      DenoteAll.keep hk cs (fun s hs => hrs s (List.mem_cons_of_mem r hs)) hd.2⟩
  | [], _ :: _, _, hd => by simp only [DenoteAll] at hd
  | _ :: _, [], _, hd => by simp only [DenoteAll] at hd

end

theorem Evolves.payload_fixed {A : Ref → Prop} (he : h.Evolves A h') {r : Ref} {p : Payload}
    (hp : p.Fixed) (hr : h.payload r = .ok p) : h'.payload r = .ok p := by
  obtain ⟨q, hq, hpq⟩ := he.payload hr
  rwa [hpq.eq_of_fixed hp] at hq

/-- Code that was there before is the code that is there. -/
theorem Evolves.code_back {A : Ref → Prop} (he : h.Evolves A h') {r : Ref} {c : Code}
    (hr : h.contains r = true) (hc : h'.payload r = .ok (.code c)) :
    h.payload r = .ok (.code c) := by
  obtain ⟨o, ho⟩ := contains_iff.mp hr
  obtain ⟨q, hq, hbecomes⟩ := he.payload (payload_eq_ok_iff.mpr ⟨o.cls, ho⟩)
  rw [hc] at hq
  obtain rfl := Except.ok.inj hq
  exact payload_eq_ok_iff.mpr ⟨o.cls, by rw [ho, hbecomes.eq_of_fixed_right trivial]⟩

theorem Evolves.preserves {A : Ref → Prop} (he : h.Evolves A h') :
    h.Preserves (fun _ => True) h' :=
  ⟨he.id, fun _ _ _ hp hr => he.payload_fixed hp hr, fun _ _ _ _ _ _ => trivial⟩

theorem Turns.preserves (ht : h.Turns (fun _ => Eq) h') : h.Preserves (fun _ => True) h' :=
  Evolves.preserves (A := noVar) (.of_eq ht)

/-- A change that leaves alone what can be a constant. -/
theorem preserves_update (h : Heap) (x : Ref) {f : Payload → Payload}
    (hf : ∀ p : Payload, p.Fixed → f p = p) : h.Preserves (fun _ => True) (h.update x f) := by
  refine ⟨rfl, fun r p _ hp hr => ?_, fun _ _ _ _ _ _ => trivial⟩
  obtain ⟨q, hq, rfl | rfl⟩ := payload_update_kept x f hr
  · exact hq
  · rwa [hf p hp] at hq

section Preserves

variable (hk : h.Preserves (fun _ => True) h')

include hk

theorem Preserves.denotes {c : Constant} {r : Ref} (hd : h.Denotes c r) : h'.Denotes c r :=
  Denotes.keep hk c trivial hd

theorem Preserves.loads {u : CodeUnit} {r : Ref} (hd : h.Loads u r) : h'.Loads u r :=
  Loads.keep hk u trivial hd

theorem Preserves.denoteAll {cs : List Constant} {rs : List Ref} (hd : h.DenoteAll cs rs) :
    h'.DenoteAll cs rs :=
  DenoteAll.keep hk cs (fun _ _ => trivial) hd

end Preserves
end Heap

/-! ## Tasks -/

/-- What may become of a task while nothing is collected, if `R` says what may become of the payload
of an object that is there. -/
structure Vm.Proceeds (R : Payload → Payload → Prop) (v v' : Vm) : Prop where
  heap : v.heap.Turns (fun _ => R) v'.heap
  /-- New code is loaded code. -/
  loads : ∀ r c, v.heap.contains r = false → v'.heap.payload r = .ok (.code c) →
    v'.heap.Loads c.unit r
  names : v.Neat → v.KeepsNames v'
  bodies : v.heap.Whole → v'.heap.Whole
  modules : v.Catalogued → v'.Catalogued

/-- The same, without entering a frame. -/
structure Vm.Works (R : Payload → Payload → Prop) (v v' : Vm) : Prop extends v.Proceeds R v' where
  frames : ∀ f' ∈ v'.frames, ∃ f ∈ v.frames, f'.still = f.still

namespace Vm.Proceeds

variable {R S T : Payload → Payload → Prop} {v v' v'' : Vm}

theorem evolves [Gentle R] (h : v.Proceeds R v') : v.heap.Evolves (fun _ => True) v'.heap :=
  h.heap.mono fun _ => Gentle.becomes

theorem refl [Gentle R] (hf : v.heap.FreeList) : v.Proceeds R v where
  heap := .refl hf fun _ => Gentle.refl
  loads r c hr hc := by
    rw [Heap.contains_of_payload hc] at hr
    cases hr
  names := .refl
  bodies := id
  modules := id

theorem trans_of [Gentle R] [Gentle S] (h : v.Proceeds R v') (h' : v'.Proceeds S v'')
    (hT : ∀ p q s, R p q → S q s → T p s) : v.Proceeds T v'' where
  heap := h.heap.trans_of h'.heap fun _ p q s _ => hT p q s
  loads r c hr hc := by
    cases hnew : v'.heap.contains r with
    | false => exact h'.loads r c hnew hc
    | true => exact h'.evolves.preserves.loads (h.loads r c hr (h'.evolves.code_back hnew hc))
  names hv := (h.names hv).trans (h'.names (h.names hv).neat) fun _ => h.heap.contains
  bodies := h'.bodies ∘ h.bodies
  modules := h'.modules ∘ h.modules

theorem mono (h : v.Proceeds R v') (hRS : ∀ p q, R p q → S p q) : v.Proceeds S v' :=
  { h with heap := h.heap.mono fun _ => hRS }

/-- After something that only adds. -/
theorem after [Gentle R] (h : v'.Proceeds R v'') (h' : v.Proceeds Eq v') : v.Proceeds R v'' :=
  h'.trans_of h fun _ _ _ hpq hqs => hpq ▸ hqs

/-- Before something that only adds. -/
theorem before [Gentle R] (h : v.Proceeds R v') (h' : v'.Proceeds Eq v'') : v.Proceeds R v'' :=
  h.trans_of h' fun _ _ _ hpq hqs => hqs ▸ hpq

/-- Nothing changes in the heap and in the module table, and no frame looks names up elsewhere. -/
theorem of_scopes (h : v.Proceeds R v') (hheap : v''.heap = v'.heap)
    (hmodules : v''.modules = v'.modules) (hscopes : ∀ r, v''.Scope r → v'.Scope r) :
    v.Proceeds R v'' where
  heap := hheap ▸ h.heap
  loads := hheap ▸ h.loads
  names hv := (h.names hv).of_scopes hheap fun r hr => .inl (hscopes r hr)
  bodies := hheap ▸ h.bodies
  modules hv := by
    intro name r
    rw [hheap, hmodules]
    exact h.modules hv name r

theorem of_same (h : v.Proceeds R v') (hs : v''.Same v') : v.Proceeds R v'' :=
  h.of_scopes hs.heap hs.modules fun _ => hs.scope

/-- A new object that is no module. New code has to be loaded code, and a new method has to run
code. -/
theorem place (h : v.Proceeds R v') {p : Payload} (k : Ref) (hp : v.Neat → v.Suits v' p)
    (hcode : ∀ c, p = .code c → v'.heap.DenoteAll c.unit.consts c.consts.toList)
    (hbody : v'.heap.Whole → ∀ m, p = .method m → m.body.Whole v'.heap)
    (hmodule : p.moduleName? = none) :
    v.Proceeds R { v' with heap := (v'.heap.place ⟨k, p⟩).2 } where
  heap := h.heap.place _
  loads r c hr hc := by
    have hevolves : v'.heap.Evolves noVar (v'.heap.place ⟨k, p⟩).2 :=
      Heap.Turns.place (Heap.Evolves.refl h.heap.freeList) _
    rcases Heap.payload_place_cases h.heap.freeList hc with ⟨rfl, heq⟩ | hold
    · exact Heap.loads_iff.mpr ⟨c.consts, hc, hevolves.preserves.denoteAll (hcode c heq.symm)⟩
    · exact hevolves.preserves.loads (h.loads r c hr hold)
  names hv := (h.names hv).place h.heap.freeList k (hp hv)
  bodies hw := (h.bodies hw).place h.heap.freeList (hbody (h.bodies hw))
  modules hv := (h.modules hv).place h.heap.freeList k hmodule

/-- Other contents of an object, where the heap and the names have been dealt with. -/
theorem update (h : v.Proceeds R v') {r : Ref} {f : Payload → Payload}
    (hheap : v.heap.Turns (fun _ => S) (v'.heap.update r f))
    (hfixed : ∀ p : Payload, p.Fixed ∨ (f p).Fixed → f p = p)
    (hmodule : ∀ p : Payload, (f p).moduleName? = p.moduleName?)
    (hnames : v.Neat → v.KeepsNames { v' with heap := v'.heap.update r f }) :
    v.Proceeds S { v' with heap := v'.heap.update r f } where
  heap := hheap
  loads s c hs hc := by
    have hkeeps := v'.heap.preserves_update r fun p hp => hfixed p (.inl hp)
    obtain ⟨p, hp, hcases⟩ := Heap.payload_update_cases hc
    have hsame : p = .code c := by
      rcases hcases with heq | heq
      · exact heq.symm
      · exact (hfixed p (.inr (heq ▸ trivial))).symm.trans heq.symm
    exact hkeeps.loads (h.loads s c hs (hsame ▸ hp))
  names := hnames
  bodies hw := (h.bodies hw).update r (fun _ => hfixed _ (.inl trivial)) fun p m hm =>
    (hfixed p (.inr (hm ▸ trivial))).symm.trans hm
  modules hv := (h.modules hv).update r hmodule

end Vm.Proceeds

namespace Vm.Works

variable {R S T : Payload → Payload → Prop} {v v' v'' : Vm}

theorem refl [Gentle R] (hf : v.heap.FreeList) : v.Works R v :=
  ⟨.refl hf, fun f' hf' => ⟨f', hf', rfl⟩⟩

theorem frames_trans (h : ∀ f' ∈ v'.frames, ∃ f ∈ v.frames, f'.still = f.still)
    (h' : ∀ f' ∈ v''.frames, ∃ f ∈ v'.frames, f'.still = f.still) :
    ∀ f' ∈ v''.frames, ∃ f ∈ v.frames, f'.still = f.still := by
  intro f' hf'
  obtain ⟨g, hg, hfg⟩ := h' f' hf'
  obtain ⟨f, hf, hgf⟩ := h g hg
  exact ⟨f, hf, hfg.trans hgf⟩

theorem after [Gentle R] (h : v'.Works R v'') (h' : v.Works Eq v') : v.Works R v'' :=
  ⟨h.toProceeds.after h'.toProceeds, frames_trans h'.frames h.frames⟩

theorem before [Gentle R] (h : v.Works R v') (h' : v'.Works Eq v'') : v.Works R v'' :=
  ⟨h.toProceeds.before h'.toProceeds, frames_trans h.frames h'.frames⟩

theorem mono (h : v.Works R v') (hRS : ∀ p q, R p q → S p q) : v.Works S v' :=
  ⟨h.toProceeds.mono hRS, h.frames⟩

theorem weaken [Gentle R] (h : v.Works Eq v') : v.Works R v' :=
  h.mono fun p _ heq => heq ▸ Gentle.refl p

theorem of_same (h : v.Works R v') (hs : v''.Same v') : v.Works R v'' :=
  ⟨h.toProceeds.of_same hs, hs.frames ▸ h.frames⟩

theorem of_ok {α : Type} {a : Action α} {vm : Vm} {x : α} (h : v.Works R (final (a vm)))
    (hrun : a vm = .ok x v') : v.Works R v' := by
  rwa [hrun] at h

/-- One action after the other. -/
theorem bind {α β : Type} {a : Action α} {f : α → Action β} {vm : Vm}
    (ha : v.Works R (final (a vm)))
    (hf : ∀ x vm', a vm = .ok x vm' → v.Works R (final (f x vm'))) :
    v.Works R (final ((a >>= f) vm)) := by
  cases h : a vm with
  | ok x vm' =>
    rw [bind_ok h]
    exact hf x vm' h
  | error e vm' =>
    rw [h] at ha
    rw [bind_error h]
    exact ha

theorem place (h : v.Works R v') {p : Payload} (k : Ref) (hp : v.Neat → v.Suits v' p)
    (hcode : ∀ c, p = .code c → v'.heap.DenoteAll c.unit.consts c.consts.toList)
    (hbody : v'.heap.Whole → ∀ m, p = .method m → m.body.Whole v'.heap)
    (hmodule : p.moduleName? = none) :
    v.Works R { v' with heap := (v'.heap.place ⟨k, p⟩).2 } :=
  ⟨h.toProceeds.place k hp hcode hbody hmodule, h.frames⟩

/-- An object that is there gets other contents. -/
theorem update [Gentle R] (hf : v.heap.FreeList) {r : Ref} {p : Payload} {f : Payload → Payload}
    (hp : v.heap.payload r = .ok p) (hR : R p (f p))
    (hbecomes : ∀ p : Payload, p.Becomes True (f p))
    (hbinds : ∀ (p : Payload) name x, (f p).Binds name x → p.Binds name x) :
    v.Works R { v with heap := v.heap.update r f } := by
  refine ⟨(Proceeds.refl (R := R) hf).update ?_ (fun p => (hbecomes p).eq_of_either)
    (fun p => (hbecomes p).moduleName) fun hv => (KeepsNames.refl hv).update hf r hbecomes hbinds,
    fun f' hf' => ⟨f', hf', rfl⟩⟩
  refine .update hf (fun _ => Gentle.refl) r f fun x o ho hcell => ?_
  obtain rfl := Heap.eq_of_cell_eq (Heap.contains_of_payload hp) (Heap.contains_of_get ho) hcell
  rw [Heap.payload_eq_ok_iff.mpr ⟨o.cls, ho⟩] at hp
  obtain rfl := Except.ok.inj hp
  exact hR

/-- A new object gets other contents. -/
theorem refill (h : v.Works R v') {r : Ref} {f : Payload → Payload}
    (hnew : v.heap.contains r = false) (hr : v'.heap.contains r = true)
    (hbecomes : ∀ p : Payload, p.Becomes True (f p))
    (hbinds : ∀ (p : Payload) name x, (f p).Binds name x → p.Binds name x) :
    v.Works R { v' with heap := v'.heap.update r f } :=
  ⟨h.toProceeds.update (h.heap.update_new hnew hr f) (fun p => (hbecomes p).eq_of_either)
    (fun p => (hbecomes p).moduleName) fun hv =>
      (h.names hv).update h.heap.freeList r hbecomes hbinds, h.frames⟩

/-- A new module gets another name. -/
theorem addLocal (h : v.Works R v') {r x : Ref} (hnew : v.heap.contains r = false)
    (hr : v'.heap.contains r = true) (name : String) (hx : v.Neat → v.Loose v' x) :
    v.Works R { v' with heap := v'.heap.update r (Payload.addLocal name x) } :=
  ⟨h.toProceeds.update (h.heap.update_new hnew hr _) (fun _ => Payload.addLocal_eq)
    (Payload.moduleName_addLocal name x) fun hv => (h.names hv).addLocal r name (hx hv), h.frames⟩

/-- A module of a name that has no entry is made and entered. -/
theorem enterModule (hf : v.heap.FreeList) (k : Ref) {name : String}
    (hname : v.modules.find? name = none) :
    v.Works Eq { v with
      heap := (v.heap.place ⟨k, .module ⟨name, {}⟩⟩).2
      modules := v.modules.insert name (v.heap.place ⟨k, .module ⟨name, {}⟩⟩).1 } := by
  have hself := Heap.payload_place_self hf ⟨k, .module ⟨name, {}⟩⟩
  refine ⟨⟨(Heap.Turns.refl hf fun _ _ => rfl).place _, ?_, fun hv => ?_,
    fun hw => hw.place hf (by rintro _ ⟨⟩), fun hv => hv.enter hf k hname⟩,
    fun f' hf' => ⟨f', hf', rfl⟩⟩
  · intro r c hr hc
    rcases Heap.payload_place_cases hf hc with ⟨-, heq⟩ | hold
    · cases heq
    · rw [Heap.contains_of_payload hold] at hr
      cases hr
  · have hplaced := (KeepsNames.refl hv).place hf k
      (p := .module ⟨name, {}⟩) (.of_nameless (fun _ _ => nofun) fun _ => nofun)
    refine hplaced.of_scopes rfl fun s hs => ?_
    cases hs with
    | frame hmem hmodule => exact .inl (.frame hmem hmodule)
    | method hm hmodule => exact .inl (.method hm hmodule)
    | @table n hfound =>
      by_cases hn : n = name
      · subst hn
        have hsome : some _ = some s := (NameMap.find?_insert_self _ _ _).symm.trans hfound
        obtain rfl := Option.some.inj hsome
        exact .inr ⟨_, hself⟩
      · exact .inl (.table ((NameMap.find?_insert_ne hn).symm.trans hfound))

end Vm.Works

/-! ## Contents that bind no name -/

namespace Payload

variable {p : Payload} {name : String} {x : Ref}

theorem binds_setSlots {xs : Array Ref} (h : (p.setSlots xs).Binds name x) : p.Binds name x := by
  cases p <;> exact h

theorem binds_setItems {xs : Array Ref} (h : (p.setItems xs).Binds name x) : p.Binds name x := by
  cases p <;> exact h

theorem binds_setTable {t : HashTable} (h : (p.setTable t).Binds name x) : p.Binds name x := by
  cases p <;> exact h

theorem binds_setValue {value : Ref} (h : (p.setValue value).Binds name x) : p.Binds name x := by
  cases p <;> exact h

theorem binds_addMethod {n : String} {m : Ref} (h : (p.addMethod n m).Binds name x) :
    p.Binds name x := by
  cases p <;> exact h

end Payload

/-- Contents that neither bind names nor are code, a method or a module. -/
class Payload.Nameless (p : Payload) : Prop where
  binds : ∀ name x, ¬ p.Binds name x
  method : ∀ m, p ≠ .method m
  code : ∀ c, p ≠ .code c
  module : p.moduleName? = none

namespace Payload.Nameless

instance object (slots : Array Ref) : Nameless (.object slots) := ⟨fun _ _ => id, nofun, nofun, rfl⟩
instance cls (c : Class) : Nameless (.cls c) := ⟨fun _ _ => id, nofun, nofun, rfl⟩
instance int (i : Int64) : Nameless (.int i) := ⟨fun _ _ => id, nofun, nofun, rfl⟩
instance float (x : Float) : Nameless (.float x) := ⟨fun _ _ => id, nofun, nofun, rfl⟩
instance str (b : ByteArray) : Nameless (.str b) := ⟨fun _ _ => id, nofun, nofun, rfl⟩
instance array (items : Array Ref) : Nameless (.array items) := ⟨fun _ _ => id, nofun, nofun, rfl⟩
instance hash (t : HashTable) : Nameless (.hash t) := ⟨fun _ _ => id, nofun, nofun, rfl⟩
instance task (t : TaskRef) : Nameless (.task t) := ⟨fun _ _ => id, nofun, nofun, rfl⟩
instance var (value : Option Ref) : Nameless (.var value) := ⟨fun _ _ => id, nofun, nofun, rfl⟩
instance error (e : ErrorInfo) : Nameless (.error e) := ⟨fun _ _ => id, nofun, nofun, rfl⟩

theorem suits {p : Payload} [hp : Nameless p] (v₀ v : Vm) : v₀.Suits v p :=
  .of_nameless hp.binds hp.method

end Payload.Nameless

/-! ## Actions -/

/-- An action that neither enters a frame nor collects, and makes no more of payloads than `R`
says. -/
class Acts (R : Payload → Payload → Prop) {α : Type} (a : Action α) : Prop where
  works : ∀ vm : Vm, vm.heap.FreeList → vm.Works R (final (a vm))

/-- An action that leaves all objects that are there as they are. -/
abbrev Adds {α : Type} (a : Action α) : Prop := Acts Eq a

namespace Acts

variable {α β : Type} {R S : Payload → Payload → Prop}

theorem of_ok {a : Action α} [h : Acts R a] {vm vm' : Vm} {x : α} (hf : vm.heap.FreeList)
    (hrun : a vm = .ok x vm') : vm.Works R vm' :=
  (h.works vm hf).of_ok hrun

theorem mono {a : Action α} (h : Acts R a) (hRS : ∀ p q, R p q → S p q) : Acts S a :=
  ⟨fun vm hf => (h.works vm hf).mono hRS⟩

instance (priority := low) of_adds (a : Action α) [h : Adds a] [Gentle R] : Acts R a :=
  ⟨fun vm hf => (h.works vm hf).weaken⟩

instance (priority := low) becomes {A : Prop} (a : Action α) [h : Acts (Payload.Changes A) a] :
    Acts (Payload.Becomes A) a :=
  h.mono fun _ _ => Payload.Changes.becomes

instance (priority := low) tame (a : Action α) [h : Acts (Payload.Becomes False) a] : Tame a :=
  ⟨fun vm hf => ⟨(h.works vm hf).heap, (h.works vm hf).frames⟩⟩

instance of_reads (a : Action α) [h : Reads a] : Adds a :=
  ⟨fun vm hf => (h.state vm).symm ▸ .refl hf⟩

instance bind (a : Action α) (f : α → Action β) [Gentle R] [ha : Adds a] [hf : ∀ x, Acts R (f x)] :
    Acts R (a >>= f) where
  works vm hfree := by
    refine .bind (ha.works vm hfree).weaken fun x vm' hrun => ?_
    have hstep := of_ok (R := Eq) hfree hrun
    exact ((hf x).works vm' hstep.heap.freeList).after hstep

/-- What is done first may change something if what follows does not. -/
instance (priority := low) bindAdds (a : Action α) (f : α → Action β) [Gentle R] [ha : Acts R a]
    [hf : ∀ x, Adds (f x)] : Acts R (a >>= f) where
  works vm hfree := by
    refine .bind (ha.works vm hfree) fun x vm' hrun => ?_
    have hstep := of_ok (R := R) hfree hrun
    exact hstep.before ((hf x).works vm' hstep.heap.freeList)

/-- For an action that only adds and whose result the next one inspects. -/
theorem after {a : Action α} {f : α → Action β} [Gentle R] [Adds a] (h : ∀ x, Acts R (f x)) :
    Acts R (a >>= f) :=
  inferInstance

/-- An action that depends on the state in which it begins. -/
theorem reading {f : Vm → Action α} (h : ∀ vm, Acts R (f vm)) : Acts R fun vm => f vm vm :=
  ⟨fun vm => (h vm).works vm⟩

/-- An action that depends on the payload of an object. -/
theorem inspecting [Gentle R] {r : Ref} {f : Payload → Action α}
    (h : ∀ (p : Payload) (vm : Vm), vm.heap.FreeList → vm.heap.payload r = .ok p →
      vm.Works R (final (f p vm))) : Acts R (Vm.payload r >>= f) where
  works vm hf := by
    cases hp : vm.heap.payload r with
    | ok p =>
      have hrun : Vm.payload r vm = .ok p vm := by simp [Vm.payload, Action.ofHeap, hp]
      rw [bind_ok hrun]
      exact h p vm hf hp
    | error e =>
      have hrun : Vm.payload r vm = .error (.fatal e) vm := by
        simp [Vm.payload, Action.ofHeap, hp]
      rw [bind_error hrun]
      exact .refl hf

/-- A change of what is neither in the heap nor among the frames nor in the module table. -/
theorem changing {f : Vm → Vm} (hheap : ∀ vm, (f vm).heap = vm.heap)
    (hframes : ∀ vm, ∀ f' ∈ (f vm).frames, ∃ f ∈ vm.frames, f'.still = f.still)
    (hmodules : ∀ vm, (f vm).modules = vm.modules) : Adds (modify f : Action Unit) := by
  refine ⟨fun vm hf => ⟨(Vm.Proceeds.refl hf).of_scopes (hheap vm) (hmodules vm) fun r hr => ?_,
    hframes vm⟩⟩
  cases hr with
  | frame hmem hmodule =>
    obtain ⟨g, hg, hstill⟩ := hframes vm _ hmem
    exact .frame hg ((congrArg ActiveFrame.module hstill).symm.trans hmodule)
  | method hm hmodule =>
    have hsame : (f vm).heap = vm.heap := hheap vm
    exact .method (hsame ▸ hm) hmodule
  | table hfound =>
    have hsame : (f vm).modules = vm.modules := hmodules vm
    exact .table (hsame ▸ hfound)

theorem changingNames {f : Vm → Vm} (hheap : ∀ vm, (f vm).heap = vm.heap)
    (hframes : ∀ vm, (f vm).frames = vm.frames) (hmodules : ∀ vm, (f vm).modules = vm.modules) :
    Adds (modify f : Action Unit) :=
  changing hheap (fun vm f' hf' => ⟨f', hframes vm ▸ hf', rfl⟩) hmodules

instance alloc (cls : Ref) (p : Payload) [hp : p.Nameless] : Adds (Vm.alloc cls p) where
  works vm hf := by
    unfold Vm.alloc
    cases vm.heap.checkOwn cls with
    | error e => exact .refl hf
    | ok _ =>
      exact (Vm.Works.refl hf).place cls (fun _ => hp.suits _ _)
        (fun c hc => absurd hc (hp.code c)) (fun _ m hm => absurd hm (hp.method m)) hp.module

/-- Other contents of any object. -/
theorem update [Gentle R] (r : Ref) {f : Payload → Payload} (hR : ∀ p : Payload, R p (f p))
    (hbinds : ∀ (p : Payload) name x, (f p).Binds name x → p.Binds name x) :
    Acts R (Action.modifyHeap fun h => h.update r f) where
  works vm hf := by
    have hbecomes := fun p => Gentle.becomes p (f p) (hR p)
    refine ⟨(Vm.Proceeds.refl (R := R) hf).update ?_ (fun p => (hbecomes p).eq_of_either)
      (fun p => (hbecomes p).moduleName) fun hv =>
        (Vm.KeepsNames.refl hv).update hf r hbecomes hbinds, fun f' hf' => ⟨f', hf', rfl⟩⟩
    exact .update hf (fun _ => Gentle.refl) r f fun _ o _ _ => hR o.payload

instance setSlots (A : Prop) (r : Ref) (xs : Array Ref) :
    Acts (Payload.Becomes A) (Action.modifyHeap fun h => h.update r (Payload.setSlots xs)) :=
  update r (.setSlots xs) fun _ _ _ => Payload.binds_setSlots

instance setItems (A : Prop) (r : Ref) (xs : Array Ref) :
    Acts (Payload.Becomes A) (Action.modifyHeap fun h => h.update r (Payload.setItems xs)) :=
  update r (.setItems xs) fun _ _ _ => Payload.binds_setItems

end Acts

/-! ## Actions with results -/

/-- An action that only adds to what was there in the state `v₀`, and whose result has a
property. -/
structure Vm.Yields {α : Type} (v₀ v : Vm) (a : Action α) (Q : Vm → α → Prop) : Prop where
  works : v₀.Works Eq (final (a v))
  result : ∀ x v', a v = .ok x v' → Q v' x

namespace Vm.Yields

variable {α β : Type} {v₀ v : Vm} {a : Action α} {f : α → Action β} {P Q : Vm → α → Prop}
  {S : Vm → β → Prop}

theorem of_adds [ha : Adds a] (hf : v.heap.FreeList) : v.Yields v a fun _ _ => True :=
  ⟨ha.works v hf, fun _ _ _ => trivial⟩

/-- An action that changes nothing. -/
theorem reads [ha : Reads a] (h : v₀.Works Eq v) :
    v₀.Yields v a fun v' x => v' = v ∧ a v = .ok x v := by
  refine ⟨(ha.state v).symm ▸ h, fun x v' hrun => ?_⟩
  obtain rfl := Reads.of_ok hrun
  exact ⟨rfl, hrun⟩

/-- An action that adds to what is there, after others did. -/
theorem lift (ha : v.Yields v a Q) (h : v₀.Works Eq v) :
    v₀.Yields v a fun v' x => v.Works Eq v' ∧ Q v' x :=
  ⟨ha.works.after h, fun x v' hrun => ⟨ha.works.of_ok hrun, ha.result x v' hrun⟩⟩

theorem return_ {x : α} (h : v₀.Works Eq v) (hx : Q v x) : v₀.Yields v (pure x) Q where
  works := h
  result y v' hrun := by
    cases hrun
    exact hx

theorem bind (ha : v₀.Yields v a P)
    (hf : ∀ x v', v₀.Works Eq v' → P v' x → v₀.Yields v' (f x) S) : v₀.Yields v (a >>= f) S := by
  cases hrun : a v with
  | ok x v' =>
    obtain ⟨hworks, hresult⟩ := hf x v' (ha.works.of_ok hrun) (ha.result x v' hrun)
    exact ⟨by rw [bind_ok hrun]; exact hworks, by rw [bind_ok hrun]; exact hresult⟩
  | error e v' =>
    have hworks := ha.works
    rw [hrun] at hworks
    refine ⟨by rw [bind_error hrun]; exact hworks, fun y w hy => ?_⟩
    rw [bind_error hrun] at hy
    cases hy

theorem imp (ha : v₀.Yields v a P) (hPQ : ∀ v' x, v₀.Works Eq v' → P v' x → Q v' x) :
    v₀.Yields v a Q :=
  ⟨ha.works, fun x v' hrun => hPQ v' x (ha.works.of_ok hrun) (ha.result x v' hrun)⟩

/-- A property of the result for which it matters where it came from. -/
theorem imp_run (ha : v₀.Yields v a P)
    (hPQ : ∀ v' x, a v = .ok x v' → v₀.Works Eq v' → P v' x → Q v' x) : v₀.Yields v a Q :=
  ⟨ha.works, fun x v' hrun => hPQ v' x hrun (ha.works.of_ok hrun) (ha.result x v' hrun)⟩

theorem fails {e : Stop} (h : v₀.Works Eq v) : v₀.Yields v (throw e) Q :=
  ⟨h, fun _ _ => nofun⟩

theorem get_bind {f : Vm → Action β} (h : v₀.Yields v (f v) S) : v₀.Yields v (get >>= f) S :=
  ⟨h.works, h.result⟩

theorem modifyHeap {g : Heap → Heap} {Q : Vm → Unit → Prop}
    (h : v₀.Works Eq { v with heap := g v.heap }) (hQ : Q { v with heap := g v.heap } ()) :
    v₀.Yields v (Action.modifyHeap g) Q where
  works := h
  result x v' hrun := by
    cases hrun
    exact hQ

/-- What is done after an action whose result is known. -/
theorem bind_run {x : α} {v' : Vm} (hrun : a v = .ok x v') (h : v₀.Yields v' (f x) S) :
    v₀.Yields v (a >>= f) S := by
  refine ⟨?_, fun y w hy => ?_⟩
  · rw [bind_ok hrun]
    exact h.works
  · rw [bind_ok hrun] at hy
    exact h.result y w hy

theorem adds {Q : Vm → Vm → α → Prop} (h : ∀ v : Vm, v.heap.FreeList → v.Yields v a (Q v)) :
    Adds a :=
  ⟨fun v hf => (h v hf).works⟩

/-- A new object. -/
theorem new (h : v₀.Works Eq v) (k : Builtin) {p : Payload} (hp : v₀.Neat → v₀.Suits v p)
    (hcode : ∀ c, p = .code c → v.heap.DenoteAll c.unit.consts c.consts.toList)
    (hbody : v.heap.Whole → ∀ m, p = .method m → m.body.Whole v.heap)
    (hmodule : p.moduleName? = none) :
    v₀.Yields v (Vm.new k p) fun v' r => v.heap.contains r = false ∧
      v'.heap.payload r = .ok p ∧ v.heap.Turns (fun _ => Eq) v'.heap := by
  have hf := h.heap.freeList
  refine ⟨?_, fun r v' hrun => ?_⟩
  · rw [Vm.new_eq]
    exact h.place _ hp hcode hbody hmodule
  · rw [Vm.new_eq] at hrun
    cases hrun
    exact ⟨Heap.place_fresh hf _, Heap.payload_place_self hf _,
      .place (.refl hf fun _ _ => rfl) _⟩

/-- A new object that binds no names. -/
theorem newPlain (hf : v.heap.FreeList) (k : Builtin) (p : Payload) [hp : p.Nameless] :
    v.Yields v (Vm.new k p) fun v' r => v.heap.contains r = false ∧
      v'.heap.payload r = .ok p ∧ v.heap.Turns (fun _ => Eq) v'.heap :=
  new (.refl hf) k (fun _ => hp.suits v v) (fun c hc => absurd hc (hp.code c))
    (fun _ m hm => absurd hm (hp.method m)) hp.module

end Vm.Yields

end ObjectMachine
