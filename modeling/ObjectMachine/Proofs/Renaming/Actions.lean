import ObjectMachine.Proofs.Renaming.Questions
import ObjectMachine.Proofs.Vm.Quiet
import ObjectMachine.Vm.Make

/-!
# ObjectMachine.Proofs.Renaming.Actions

Actions that do the same on states that are the same up to the names of objects.

The renaming grows with every object that both sides make. What an action has done before it fails
is compared too.

* `Vm.Related` — states that agree up to a renaming of references. What only the collector and its
  report depend on is left out.
* `Observes` — two actions that change nothing and answer the same.
* `Leads`, `Respects` — two actions that lead from related states to related states and answers.
* `Respects.bind`, `Observes.bind`, `Observes.andThen` — sequences of actions.
* `Respects.alloc`, `Respects.new`, `Respects.update` — the changes of the heap.
-/

namespace ObjectMachine

open ObjectMachine.Action

/-! ## States -/

structure ActiveFrame.Related (ρ : Renaming) (f g : ActiveFrame) : Prop where
  frame : ρ f.frame g.frame
  method : ρ f.method g.method
  code : ρ f.code g.code
  module : Option.Rel ρ f.module g.module
  unit : f.unit = g.unit
  ip : f.ip = g.ip
  base : f.base = g.base

theorem ActiveFrame.Related.mono {ρ σ : Renaming} {f g : ActiveFrame} (h : f.Related ρ g)
    (hσ : ρ ≤ σ) : f.Related σ g :=
  ⟨hσ _ _ h.frame, hσ _ _ h.method, hσ _ _ h.code,
    optionRel_imp h.module fun _ _ _ _ => hσ _ _, h.unit, h.ip, h.base⟩

/-- Settings that differ at most in what the collector goes by. -/
structure Config.Alike (c d : Config) : Prop where
  maxFrames : c.maxFrames = d.maxFrames
  maxNativeDepth : c.maxNativeDepth = d.maxNativeDepth
  taskStackSize : c.taskStackSize = d.taskStackSize
  trace : c.trace = d.trace

/-- States that are equal up to the names of objects, the collector and the trace. -/
structure Vm.Related (ρ : Renaming) (v w : Vm) : Prop where
  heap : v.heap.Related ρ w.heap
  task : v.task = w.task
  config : v.config.Alike w.config
  registry : v.registry = w.registry
  stack : List.Forall₂ ρ v.stack.toList w.stack.toList
  frames : List.Forall₂ (ActiveFrame.Related ρ) v.frames.toList w.frames.toList
  temps : List.Forall₂ ρ v.temps w.temps
  classes : v.classes.Related ρ w.classes
  globals : v.globals.Related ρ w.globals
  modules : v.modules.Related ρ w.modules
  loops : v.loops = w.loops
  output : v.output = w.output

/-- What an action keeps: methods, which nothing ever changes, and the temporary roots. -/
structure Vm.Keeps (v v' : Vm) : Prop where
  methods : ∀ r k m, v.heap.get r = .ok ⟨k, .method m⟩ → v'.heap.get r = .ok ⟨k, .method m⟩
  temps : v'.temps = v.temps

theorem Vm.Keeps.of_eq {v v' : Vm} (hheap : v'.heap = v.heap) (htemps : v'.temps = v.temps) :
    v.Keeps v' := by
  refine ⟨fun r k m hr => ?_, htemps⟩
  rw [hheap]
  exact hr

theorem Vm.Keeps.refl (v : Vm) : v.Keeps v :=
  of_eq rfl rfl

theorem Vm.Keeps.trans {u v w : Vm} (h : u.Keeps v) (h' : v.Keeps w) : u.Keeps w :=
  ⟨fun r k m hr => h'.methods r k m (h.methods r k m hr), h'.temps.trans h.temps⟩

namespace Vm.Related

variable {ρ σ : Renaming} {v w : Vm}

/-- Other heaps, with a renaming that has at least the pairs of the old one. -/
theorem withHeap (h : v.Related ρ w) (hσ : ρ ≤ σ) {hv hw : Heap} (hheap : hv.Related σ hw) :
    Vm.Related σ { v with heap := hv } { w with heap := hw } where
  heap := hheap
  task := h.task
  config := h.config
  registry := h.registry
  stack := List.Forall₂.imp hσ h.stack
  frames := List.Forall₂.imp (fun _ _ hf => hf.mono hσ) h.frames
  temps := List.Forall₂.imp hσ h.temps
  classes := h.classes.mono hσ
  globals := h.globals.mono hσ
  modules := h.modules.mono hσ
  loops := h.loops
  output := h.output

theorem withLog (h : v.Related ρ w) (l l' : List String) :
    Vm.Related ρ { v with log := l } { w with log := l' } :=
  { h with }

theorem frames_size (h : v.Related ρ w) : v.frames.size = w.frames.size := by
  simpa using h.frames.length_eq

theorem stack_size (h : v.Related ρ w) : v.stack.size = w.stack.size := by
  simpa using h.stack.length_eq

theorem callDepth (h : v.Related ρ w) : v.frames.size + (v.loops - 1) = w.frames.size + (w.loops - 1) := by
  rw [h.frames_size, h.loops]

end Vm.Related

/-! ## Answers -/

/-- References that stand for each other. -/
abbrev Renamed (σ : Renaming) : Ref → Ref → Prop := σ

/-- No answer to compare. -/
abbrev Anything {α β : Type} (_ : Renaming) (_ : α) (_ : β) : Prop := True

/-- The same answer. -/
abbrev Equal {α : Type} (_ : Renaming) (x y : α) : Prop := x = y

variable {ρ : Renaming} {α β γ δ : Type}

/-- Nothing has changed, and the answers or failures are related. -/
inductive Observed (ρ : Renaming) (v w : Vm) (R : α → β → Prop) :
    EStateM.Result Stop Vm α → EStateM.Result Stop Vm β → Prop where
  | ok {x : α} {y : β} : R x y → Observed ρ v w R (.ok x v) (.ok y w)
  | error {e f : Stop} : e.Related ρ f → Observed ρ v w R (.error e v) (.error f w)

/-- Two actions that change nothing and have the same answer. -/
def Observes (ρ : Renaming) (a : Action α) (b : Action β) (R : α → β → Prop) : Prop :=
  ∀ v w, v.Related ρ w → Observed ρ v w R (a v) (b w)

/-- Two ends in states that are related by a renaming with at least the pairs of `ρ`. The answers
are related by it, too, and may be compared to the state on the left. -/
inductive Ends (ρ : Renaming) (v : Vm) (R : Renaming → Vm → α → β → Prop) :
    EStateM.Result Stop Vm α → EStateM.Result Stop Vm β → Prop where
  | ok {σ : Renaming} {x : α} {y : β} {v' w' : Vm} : ρ ≤ σ → v'.Related σ w' → v.Keeps v' →
      R σ v' x y → Ends ρ v R (.ok x v') (.ok y w')
  | error {σ : Renaming} {e f : Stop} {v' w' : Vm} : ρ ≤ σ → v'.Related σ w' → v.Keeps v' →
      e.Related σ f → Ends ρ v R (.error e v') (.error f w')

/-- Two actions that do the same in related states. -/
def Leads (ρ : Renaming) (a : Action α) (b : Action β) (R : Renaming → Vm → α → β → Prop) : Prop :=
  ∀ v w, v.Related ρ w → Ends ρ v R (a v) (b w)

/-- The same where the answers matter, but not the state with them. -/
abbrev Respects (ρ : Renaming) (a : Action α) (b : Action β) (R : Renaming → α → β → Prop) : Prop :=
  Leads ρ a b fun σ _ => R σ

namespace Observes

variable {a : Action α} {b : Action β} {R : α → β → Prop}

theorem return_ {x : α} {y : β} (h : R x y) : Observes ρ (pure x) (pure y) R :=
  fun _ _ _ => .ok h

theorem fails {e f : Stop} (h : e.Related ρ f) :
    Observes ρ (throw e : Action α) (throw f : Action β) R :=
  fun _ _ _ => .error h

theorem raise {e : Error} (he : ∀ v, e ≠ .panic v) :
    Observes ρ (Action.raise e : Action α) (Action.raise e : Action β) R :=
  fails (.raised (.same he))

theorem fatal {f : Fatal} (hf : f.ref? = none) :
    Observes ρ (Action.fatal f : Action α) (Action.fatal f : Action β) R :=
  fails (.fatal (.same hf))

theorem ofHeap {q : Heap → Except Fatal α} {q' : Heap → Except Fatal β}
    (h : ∀ hv hw, hv.Related ρ hw → Agree (Fatal.Related ρ) R (q hv) (q' hw)) :
    Observes ρ (Action.ofHeap q) (Action.ofHeap q') R := by
  intro v w hvw
  have := h _ _ hvw.heap
  unfold Action.ofHeap
  generalize q v.heap = x, q' w.heap = y at this ⊢
  cases this with
  | ok hxy => exact .ok hxy
  | error he => exact .error (.fatal he)

/-- A look at the state. -/
theorem reading {f : Vm → α} {g : Vm → β} (h : ∀ v w, v.Related ρ w → R (f v) (g w)) :
    Observes ρ (fun vm => .ok (f vm) vm) (fun vm => .ok (g vm) vm) R :=
  fun v w hvw => .ok (h v w hvw)

theorem get_bind {f : Vm → Action α} {g : Vm → Action β}
    (h : ∀ v w, v.Related ρ w → Observes ρ (f v) (g w) R) :
    Observes ρ (get >>= f) (get >>= g) R :=
  fun v w hvw => h v w hvw v w hvw

theorem bind {f : α → Action γ} {g : β → Action δ} {S : γ → δ → Prop} (h : Observes ρ a b R)
    (hfg : ∀ x y, R x y → Observes ρ (f x) (g y) S) : Observes ρ (a >>= f) (b >>= g) S := by
  intro v w hvw
  have hab := h v w hvw
  rw [bind_run, bind_run]
  generalize a v = x, b w = y at hab ⊢
  cases hab with
  | ok hxy => exact hfg _ _ hxy v w hvw
  | error he => exact .error he

theorem bindEq {a b : Action α} {f : α → Action γ} {g : α → Action δ} {S : γ → δ → Prop}
    (h : Observes ρ a b Eq) (hfg : ∀ x, Observes ρ (f x) (g x) S) :
    Observes ρ (a >>= f) (b >>= g) S :=
  h.bind fun x _ hxy => hxy ▸ hfg x

/-- After a look that succeeds, in the very states that were looked at. -/
theorem ends {f : α → Action γ} {g : β → Action δ} {S : Renaming → Vm → γ → δ → Prop}
    (h : Observes ρ a b R) {v w : Vm} (hvw : v.Related ρ w)
    (hfg : ∀ x y, a v = .ok x v → R x y → Ends ρ v S (f x v) (g y w)) :
    Ends ρ v S ((a >>= f) v) ((b >>= g) w) := by
  have hab := h v w hvw
  rw [bind_run, bind_run]
  generalize hx : a v = x, b w = y at hab ⊢
  cases hab with
  | ok hxy => exact hfg _ _ hx hxy
  | error he => exact .error le_rfl hvw (.refl v) he

theorem andThen {f : α → Action γ} {g : β → Action δ} {S : Renaming → Vm → γ → δ → Prop}
    (h : Observes ρ a b R) (hfg : ∀ x y, R x y → Leads ρ (f x) (g y) S) :
    Leads ρ (a >>= f) (b >>= g) S :=
  fun v w hvw => h.ends hvw fun x y _ hxy => hfg x y hxy v w hvw

theorem andEq {a b : Action α} {f : α → Action γ} {g : α → Action δ}
    {S : Renaming → Vm → γ → δ → Prop} (h : Observes ρ a b Eq)
    (hfg : ∀ x, Leads ρ (f x) (g x) S) : Leads ρ (a >>= f) (b >>= g) S :=
  h.andThen fun x _ hxy => hxy ▸ hfg x

theorem respects {R : Renaming → α → β → Prop} (h : Observes ρ a b (R ρ)) : Respects ρ a b R := by
  intro v w hvw
  have hab := h v w hvw
  generalize a v = x, b w = y at hab ⊢
  cases hab with
  | ok hxy => exact .ok le_rfl hvw (.refl v) hxy
  | error he => exact .error le_rfl hvw (.refl v) he

end Observes

/-- Ends after an action that kept the renaming and the state within what went before. -/
theorem Ends.after {v v' : Vm} {R : Renaming → Vm → α → β → Prop} {σ : Renaming}
    {x : EStateM.Result Stop Vm α} {y : EStateM.Result Stop Vm β} (hσ : ρ ≤ σ) (hk : v.Keeps v')
    (h : Ends σ v' R x y) : Ends ρ v R x y := by
  cases h with
  | ok hτ hrel hk' hR => exact .ok (hσ.trans hτ) hrel (hk.trans hk') hR
  | error hτ hrel hk' he => exact .error (hσ.trans hτ) hrel (hk.trans hk') he

theorem Ends.mono {v : Vm} {R S : Renaming → Vm → α → β → Prop}
    {x : EStateM.Result Stop Vm α} {y : EStateM.Result Stop Vm β} (h : Ends ρ v R x y)
    (hRS : ∀ σ v' x y, R σ v' x y → S σ v' x y) : Ends ρ v S x y := by
  cases h with
  | ok hσ hrel hk hR => exact .ok hσ hrel hk (hRS _ _ _ _ hR)
  | error hσ hrel hk he => exact .error hσ hrel hk he

theorem Ends.bind {v w : Vm} {a : Action α} {b : Action β} {R : Renaming → Vm → α → β → Prop}
    {f : α → Action γ} {g : β → Action δ} {S : Renaming → Vm → γ → δ → Prop}
    (h : Ends ρ v R (a v) (b w))
    (hfg : ∀ σ, ρ ≤ σ → ∀ x y v' w', v'.Related σ w' → R σ v' x y → Ends σ v' S (f x v') (g y w')) :
    Ends ρ v S ((a >>= f) v) ((b >>= g) w) := by
  rw [bind_run, bind_run]
  generalize a v = x, b w = y at h ⊢
  cases h with
  | ok hσ hrel hk hR => exact .after hσ hk (hfg _ hσ _ _ _ _ hrel hR)
  | error hσ hrel hk he => exact .error hσ hrel hk he

theorem Ends.andThen {v w : Vm} {a : Action α} {b : Action β} {R : Renaming → α → β → Prop}
    {f : α → Action γ} {g : β → Action δ} {S : Renaming → Vm → γ → δ → Prop}
    (h : Ends ρ v (fun σ _ => R σ) (a v) (b w))
    (hfg : ∀ σ, ρ ≤ σ → ∀ x y, R σ x y → Leads σ (f x) (g y) S) :
    Ends ρ v S ((a >>= f) v) ((b >>= g) w) :=
  h.bind fun σ hσ x y v' w' hvw hR => hfg σ hσ x y hR v' w' hvw

namespace Leads

variable {a : Action α} {b : Action β} {R : Renaming → Vm → α → β → Prop}

theorem fails {e f : Stop} (h : e.Related ρ f) :
    Leads ρ (throw e : Action α) (throw f : Action β) R :=
  fun v _ hvw => .error le_rfl hvw (.refl v) h

theorem return_ {x : α} {y : β} (h : ∀ v, R ρ v x y) : Leads ρ (pure x) (pure y) R :=
  fun v _ hvw => .ok le_rfl hvw (.refl v) (h v)

theorem raise {e : Error} (he : ∀ v, e ≠ .panic v) :
    Leads ρ (Action.raise e : Action α) (Action.raise e : Action β) R :=
  fails (.raised (.same he))

theorem fatal {f : Fatal} (hf : f.ref? = none) :
    Leads ρ (Action.fatal f : Action α) (Action.fatal f : Action β) R :=
  fails (.fatal (.same hf))

theorem get_bind {f : Vm → Action α} {g : Vm → Action β}
    (h : ∀ v w, v.Related ρ w → Leads ρ (f v) (g w) R) : Leads ρ (get >>= f) (get >>= g) R :=
  fun v w hvw => h v w hvw v w hvw

end Leads

namespace Respects

variable {a : Action α} {b : Action β} {R : Renaming → α → β → Prop}

theorem return_ {x : α} {y : β} (h : R ρ x y) : Respects ρ (pure x) (pure y) R :=
  fun v _ hvw => .ok le_rfl hvw (.refl v) h

theorem bind {f : α → Action γ} {g : β → Action δ} {S : Renaming → Vm → γ → δ → Prop}
    (h : Respects ρ a b R)
    (hfg : ∀ σ, ρ ≤ σ → ∀ x y, R σ x y → Leads σ (f x) (g y) S) :
    Leads ρ (a >>= f) (b >>= g) S :=
  fun v w hvw => (h v w hvw).andThen hfg

theorem changing {f g : Vm → Vm} (h : ∀ v w, v.Related ρ w → (f v).Related ρ (g w))
    (hk : ∀ v : Vm, v.Keeps (f v)) : Respects ρ (modify f) (modify g) Anything :=
  fun v w hvw => .ok le_rfl (h v w hvw) (hk v) trivial

theorem trace (on : Channels → Bool) (channel : String) (text text' : Vm → String) :
    Respects ρ (Vm.trace on channel text) (Vm.trace on channel text') Anything := by
  refine changing (fun v w hvw => ?_) fun v => ?_
  · rw [hvw.config.trace]
    split
    · exact hvw.withLog _ _
    · exact hvw
  · split <;> exact .of_eq rfl rfl

end Respects

/-! ## New objects -/

/-- A new object on both sides. The left heap admits it. -/
theorem Ends.alloc {v w : Vm} (hvw : v.Related ρ w) {k k' : Ref} {p p' : Payload} (hk : ρ k k')
    (hp : p.Related ρ p') (ha : v.heap.Admits k p) :
    Ends ρ v (fun σ v' r s => σ r s ∧ v'.heap.get r = .ok ⟨k, p⟩) (Vm.alloc k p v)
      (Vm.alloc k' p' w) := by
  have hleft : v.heap.checkOwn k = .ok () := if_pos (Heap.contains_heap (hvw.heap.live_left hk))
  have hright : w.heap.checkOwn k' = .ok () := if_pos (Heap.contains_heap (hvw.heap.live_right hk))
  unfold Vm.alloc
  rw [hleft, hright]
  have hle := Heap.le_extend ρ (v.heap.place ⟨k, p⟩).1 (w.heap.place ⟨k', p'⟩).1
  refine .ok hle (hvw.withHeap hle (hvw.heap.place hk hp ha)) ⟨?_, rfl⟩ ⟨.inr ⟨rfl, rfl⟩, ?_⟩
  · exact fun r k m hr => Heap.get_place_of_get hvw.heap.left.freeList _ hr
  · exact (Heap.get_place hvw.heap.left.freeList _ _).trans (if_pos rfl)

/-- The class of a kind traces the objects of the kind. -/
theorem Builtin.mark_of_ofPayload? {k : Builtin} {p : Payload} (h : ofPayload? p = some k)
    {f : MarkFn} (hf : p.markFn? = some f) : k.slots.mark = some f := by
  cases p <;> cases h <;> cases hf <;> rfl

theorem Heap.Sound.admits_builtin {h : Heap} (hs : h.Sound) {k : Builtin} {p : Payload}
    (hk : Builtin.ofPayload? p = some k) (hrefs : ∀ s ∈ p.refs, h.contains s = true)
    (hcls : ∀ c, p = .cls c → c.slots.Standard ∧ ∀ s, c.super = some s → ∃ d, h.cls s = .ok d) :
    h.Admits (k.ref h.id) p := by
  obtain ⟨c, hc, hslots⟩ := hs.builtin k
  obtain ⟨cs, hl⟩ := hs.lineage _ c hc
  refine ⟨⟨cs, hl, fun f hf => ⟨c, ?_, ?_⟩⟩, hrefs, hcls⟩
  · obtain ⟨c', rest, rfl, hc'⟩ := hl.head
    rw [hc] at hc'
    cases hc'
    exact List.mem_cons_self
  · rw [hslots]
    exact Builtin.mark_of_ofPayload? hk hf

/-- A new object of the class of its kind, which is not the kind of classes. -/
theorem Leads.new {k : Builtin} {p p' : Payload} (hp : p.Related ρ p')
    (hk : Builtin.ofPayload? p = some k) (hcls : k ≠ .cls) :
    Leads ρ (Vm.new k p) (Vm.new k p') fun σ v r s => σ r s ∧ ∃ c, v.heap.get r = .ok ⟨c, p⟩ := by
  intro v w hvw
  refine (Ends.alloc hvw (hvw.heap.builtin k) hp (hvw.heap.left.admits_builtin hk ?_ ?_)).mono ?_
  · intro s hs
    obtain ⟨s', -, hss⟩ := forall₂_mem_left hp.refs hs
    exact hvw.heap.live_left hss
  · rintro c rfl
    exact absurd (Option.some.inj hk).symm hcls
  · exact fun σ v' r s hR => ⟨hR.1, _, hR.2⟩

namespace Respects

theorem new {k : Builtin} {p p' : Payload} (hp : p.Related ρ p')
    (hk : Builtin.ofPayload? p = some k) (hcls : k ≠ .cls) :
    Respects ρ (Vm.new k p) (Vm.new k p') Renamed :=
  fun v w hvw => (Leads.new hp hk hcls v w hvw).mono fun _ _ _ _ hR => hR.1

/-! ## Other contents -/

theorem update {r s : Ref} (hrs : ρ r s) {f g : Payload → Payload} (hf : Payload.Mild f)
    (hg : Payload.Mild g) (hfg : ∀ p q, p.Related ρ q → (f p).Related ρ (g q)) :
    Respects ρ (Action.modifyHeap fun h => h.update r f) (Action.modifyHeap fun h => h.update s g)
      Anything := by
  refine changing (fun v w hvw => hvw.withHeap le_rfl (hvw.heap.update hrs hf hg hfg)) fun v => ?_
  refine ⟨fun x k m hx => ?_, rfl⟩
  have := Heap.get_update_of_get (r := r) (f := f) hx
  rw [hf.method m, ite_self] at this
  exact this

end Respects

namespace Payload

theorem mild_setSlots (slots : Array Ref) : Mild (setSlots slots) :=
  ⟨fun p => by cases p <;> rfl, fun c => ⟨c, rfl, rfl, rfl⟩, fun _ => rfl⟩

theorem mild_setItems (items : Array Ref) : Mild (setItems items) :=
  ⟨fun p => by cases p <;> rfl, fun c => ⟨c, rfl, rfl, rfl⟩, fun _ => rfl⟩

theorem mild_setTable (t : HashTable) : Mild (setTable t) :=
  ⟨fun p => by cases p <;> rfl, fun c => ⟨c, rfl, rfl, rfl⟩, fun _ => rfl⟩

theorem mild_setValue (r : Ref) : Mild (setValue r) :=
  ⟨fun p => by cases p <;> rfl, fun c => ⟨c, rfl, rfl, rfl⟩, fun _ => rfl⟩

theorem mild_addMethod (name : String) (m : Ref) : Mild (addMethod name m) :=
  ⟨fun p => by cases p <;> rfl, fun _ => ⟨_, rfl, rfl, rfl⟩, fun _ => rfl⟩

theorem mild_addLocal (name : String) (var : Ref) : Mild (addLocal name var) :=
  ⟨fun p => by cases p <;> rfl, fun c => ⟨c, rfl, rfl, rfl⟩, fun _ => rfl⟩

end Payload

namespace Respects

variable {r s : Ref}

theorem setSlots (hrs : ρ r s) {xs ys : Array Ref} (h : List.Forall₂ ρ xs.toList ys.toList) :
    Respects ρ (Action.modifyHeap fun h => h.update r (Payload.setSlots xs))
      (Action.modifyHeap fun h => h.update s (Payload.setSlots ys)) Anything := by
  refine update hrs (Payload.mild_setSlots _) (Payload.mild_setSlots _) fun p q hpq => ?_
  cases hpq with
  | object => exact .object h
  | _ => constructor <;> assumption

theorem setItems (hrs : ρ r s) {xs ys : Array Ref} (h : List.Forall₂ ρ xs.toList ys.toList) :
    Respects ρ (Action.modifyHeap fun h => h.update r (Payload.setItems xs))
      (Action.modifyHeap fun h => h.update s (Payload.setItems ys)) Anything := by
  refine update hrs (Payload.mild_setItems _) (Payload.mild_setItems _) fun p q hpq => ?_
  cases hpq with
  | array => exact .array h
  | _ => constructor <;> assumption

theorem setTable (hrs : ρ r s) {t u : HashTable} (h : t.Related ρ u) :
    Respects ρ (Action.modifyHeap fun h => h.update r (Payload.setTable t))
      (Action.modifyHeap fun h => h.update s (Payload.setTable u)) Anything := by
  refine update hrs (Payload.mild_setTable _) (Payload.mild_setTable _) fun p q hpq => ?_
  cases hpq with
  | hash => exact .hash h
  | _ => constructor <;> assumption

theorem setValue (hrs : ρ r s) {x y : Ref} (h : ρ x y) :
    Respects ρ (Action.modifyHeap fun h => h.update r (Payload.setValue x))
      (Action.modifyHeap fun h => h.update s (Payload.setValue y)) Anything := by
  refine update hrs (Payload.mild_setValue _) (Payload.mild_setValue _) fun p q hpq => ?_
  cases hpq with
  | var => exact .var (.some h)
  | _ => constructor <;> assumption

theorem addMethod (hrs : ρ r s) (name : String) {x y : Ref} (h : ρ x y) :
    Respects ρ (Action.modifyHeap fun h => h.update r (Payload.addMethod name x))
      (Action.modifyHeap fun h => h.update s (Payload.addMethod name y)) Anything := by
  refine update hrs (Payload.mild_addMethod _ _) (Payload.mild_addMethod _ _) fun p q hpq => ?_
  cases hpq with
  | cls hcd => exact .cls { hcd with methods := hcd.methods.insert name h }
  | _ => constructor <;> assumption

theorem addLocal (hrs : ρ r s) (name : String) {x y : Ref} (h : ρ x y) :
    Respects ρ (Action.modifyHeap fun h => h.update r (Payload.addLocal name x))
      (Action.modifyHeap fun h => h.update s (Payload.addLocal name y)) Anything := by
  refine update hrs (Payload.mild_addLocal _ _) (Payload.mild_addLocal _ _) fun p q hpq => ?_
  cases hpq with
  | module hmn => exact .module { hmn with locals := hmn.locals.insert name h }
  | _ => constructor <;> assumption

end Respects
end ObjectMachine
