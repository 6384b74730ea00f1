import ObjectMachine.Proofs.Vm.Crediting

/-!
# ObjectMachine.Proofs.Vm.Rules

Properties of all actions from those of a few.

Whatever a task does, it does by a handful of primitive actions: it looks at its state, never at the
method of a frame; it changes what is not in the heap; it gives an object that is no frame, method
or hash other contents; it makes an object; and it enters a method. A property that the primitives
have and sequences keep belongs to every action that is made of them. Writing in a hash is a
primitive of its own, and so is collecting, which no rule admits.

* `Rule` — such a property. `HashRule` — one that writing in a hash has as well.
* `Obeys` — an action has the property. The instances follow the definitions.
* `Obeys.look`, `Obeys.inspect`, `Obeys.top_bind` — actions that depend on the state, on a payload
  or on the running frame.
-/

namespace ObjectMachine

open ObjectMachine.Action

/-- What a task makes of an answer. -/
def Action.ofExcept {α : Type} : Except Stop α → Action α
  | .ok x => pure x
  | .error e => throw e

theorem Action.ofHeap_eq {α : Type} (q : Heap → Except Fatal α) :
    Action.ofHeap q = fun vm => Action.ofExcept (Heap.asking (q vm.heap)) vm := by
  funext vm
  unfold Action.ofHeap
  cases q vm.heap <;> rfl

/-- Nothing but writing in a hash changes hashes, and nothing at all changes frames and methods. -/
def Payload.Apart : Payload → Prop
  | .hash _ | .frame _ | .method _ => True
  | _ => False

/-- Other contents for objects that are no frame, method or hash. -/
def Payload.Sparing (g : Payload → Payload) : Prop :=
  ∀ p : Payload, p.Apart ∨ (g p).Apart → g p = p

/-- A property of actions that holds of the primitive ones and is kept by sequences. -/
class Rule (P : (α : Type) → Action α → Prop) : Prop where
  return_ {α : Type} (x : α) : P α (pure x)
  fail {α : Type} (e : Stop) : P α (throw e)
  bind {α β : Type} {a : Action α} {f : α → Action β} : P α a → (∀ x, P β (f x)) → P β (a >>= f)
  /-- An action that depends on the state in which it begins, but not on the method of a frame. -/
  look {α : Type} {f : Vm → Action α} : (∀ vm, P α (f vm)) →
    (∀ r b vm, vm.heap.Credible r b → f (vm.credit r b) = f vm) → P α fun vm => f vm vm
  /-- A change of anything but the heap. -/
  change {g : Vm → Vm} : (∀ vm, (g vm).heap = vm.heap) →
    (∀ r b vm, g (vm.credit r b) = (g vm).credit r b) → P Unit (modify g)
  update (x : Ref) {g : Payload → Payload} : Payload.Sparing g →
    P Unit (Action.modifyHeap fun h => h.update x g)
  alloc (cls : Ref) {p : Payload} : (∀ t, p = .hash t → t = {}) → P Ref (Vm.alloc cls p)
  enter (method : Ref) (args : List Ref) :
    P ActiveFrame (Vm.activate method args) → P Unit (Vm.enter method args)
  /-- A missing key is no failure here. -/
  hashGet (hash key : Ref) : P Ref (Vm.getItem hash key) → P Ref (Vm.hashGet hash key)

/-- One that writing in a hash has as well. -/
class HashRule (P : (α : Type) → Action α → Prop) : Prop extends Rule P where
  setTable (x : Ref) (t : HashTable) :
    P Unit (Action.modifyHeap fun h => h.update x (Payload.setTable t))

/-- The action has the property. -/
class Obeys (P : (α : Type) → Action α → Prop) {α : Type} (a : Action α) : Prop where
  holds : P α a

namespace Obeys

variable {P : (α : Type) → Action α → Prop} [Rule P] {α β : Type}

instance return_ (x : α) : Obeys P (pure x : Action α) := ⟨Rule.return_ x⟩

instance fails (e : Stop) : Obeys P (throw e : Action α) := ⟨Rule.fail e⟩

instance raise (e : Error) : Obeys P (Action.raise e : Action α) := ⟨Rule.fail _⟩

instance fatal (f : Fatal) : Obeys P (Action.fatal f : Action α) := ⟨Rule.fail _⟩

instance bind (a : Action α) (f : α → Action β) [ha : Obeys P a] [hf : ∀ x, Obeys P (f x)] :
    Obeys P (a >>= f) :=
  ⟨Rule.bind ha.holds fun x => (hf x).holds⟩

/-- What stands after a failure does not matter. -/
instance raise_bind (e : Error) (f : α → Action β) :
    Obeys P ((Action.raise e : Action α) >>= f) :=
  raise e

instance fails_bind (e : Stop) (f : α → Action β) : Obeys P ((throw e : Action α) >>= f) :=
  fails e

/-- For an action whose result the next one inspects. -/
theorem after {a : Action α} {f : α → Action β} [Obeys P a] (h : ∀ x, Obeys P (f x)) :
    Obeys P (a >>= f) :=
  inferInstance

theorem look {f : Vm → Action α} (hf : ∀ vm, Obeys P (f vm))
    (hsame : ∀ r b vm, vm.heap.Credible r b → f (vm.credit r b) = f vm) :
    Obeys P fun vm => f vm vm :=
  ⟨Rule.look (fun vm => (hf vm).holds) hsame⟩

theorem get_bind {f : Vm → Action α} (hf : ∀ vm, Obeys P (f vm))
    (hsame : ∀ r b vm, vm.heap.Credible r b → f (vm.credit r b) = f vm) :
    Obeys P (get >>= f : Action α) :=
  look (f := f) hf hsame

theorem change {g : Vm → Vm} (hheap : ∀ vm, (g vm).heap = vm.heap)
    (hcredit : ∀ r b vm, g (vm.credit r b) = (g vm).credit r b) :
    Obeys P (modify g : Action Unit) :=
  ⟨Rule.change hheap hcredit⟩

/-! ## Questions -/

instance ofExcept (x : Except Stop α) : Obeys P (Action.ofExcept x) := by
  cases x <;> unfold Action.ofExcept <;> infer_instance

instance ofHeap (q : Heap → Except Fatal α) [hq : Unaware q] : Obeys P (Action.ofHeap q) := by
  rw [Action.ofHeap_eq]
  exact look (f := fun vm => Action.ofExcept (Heap.asking (q vm.heap))) (fun _ => inferInstance)
    fun r b vm hc => congrArg (fun x => Action.ofExcept (Heap.asking x)) (hq.same r b vm.heap hc)

/-- An action that depends on the payload of an object, but not on the method of a frame. -/
theorem inspect (x : Ref) {f : Payload → Action α} (hf : ∀ p, Obeys P (f p))
    (hsame : Payload.Anonymous f) : Obeys P (Vm.payload x >>= f) := by
  unfold Vm.payload
  rw [Action.ofHeap_eq]
  refine look (f := fun vm => Action.ofExcept (Heap.asking (vm.heap.payload x)) >>= f)
    (fun _ => inferInstance) fun r b vm _ => ?_
  rcases Heap.payload_credit_cases (h := vm.heap) (r := r) (b := b) x with hx | ⟨g, hx, hx'⟩
  · exact congrArg (fun y => Action.ofExcept (Heap.asking y) >>= f) hx
  · show Action.ofExcept (Heap.asking ((vm.heap.credit r b).payload x)) >>= f = _
    rw [hx, hx']
    exact hsame b (.frame g)

/-- An action that depends on the running frame, but not on its method. -/
theorem top_bind {f : ActiveFrame → Action α} (hf : ∀ g, Obeys P (f g))
    (hsame : ∀ g m, f { g with method := m } = f g) : Obeys P (Vm.top >>= f) := by
  have htop : (Vm.top >>= f) =
      fun vm => vm.frames.back?.elim (Action.fatal .noActiveFrame) f vm := by
    funext vm
    unfold Vm.top
    cases hback : vm.frames.back? with
    | none =>
      have : (get : Action Vm) vm = .ok vm vm := rfl
      simp only [bind_run, this, hback]
      rfl
    | some g =>
      have : (get : Action Vm) vm = .ok vm vm := rfl
      simp only [bind_run, this, hback]
      rfl
  rw [htop]
  refine look (f := fun vm => vm.frames.back?.elim (Action.fatal .noActiveFrame) f)
    (fun vm => ?_) fun r b vm _ => ?_
  · cases vm.frames.back? with
    | none => exact fatal _
    | some g => exact hf g
  · have hback : (vm.credit r b).frames.back? =
        vm.frames.back?.map (ActiveFrame.credit r b) := by
      simp [Vm.credit]
    rw [hback]
    cases vm.frames.back? with
    | none => rfl
    | some g =>
      rcases g.credit_cases r b with hg | hg <;> simp only [Option.map_some, Option.elim_some, hg]
      exact hsame g b

end Obeys
end ObjectMachine
