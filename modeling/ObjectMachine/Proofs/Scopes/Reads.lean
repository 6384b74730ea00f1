import ObjectMachine.Machine.Instruction
import ObjectMachine.Proofs.Vm.Quiet

/-!
# ObjectMachine.Proofs.Scopes.Reads

Actions that change nothing, and what it says that they succeed.

* `Reads` — the actions that change nothing. The instances follow the definitions.
* `Vm.payload_eq_ok`, `Vm.top_eq_ok`, `Vm.pop_eq_ok`, … — what was there if an action succeeded.
-/

namespace ObjectMachine

open ObjectMachine.Action

/-! ## Actions that succeed -/

namespace Action

variable {α β : Type} {vm vm' : Vm}

theorem bind_eq_ok {a : Action α} {f : α → Action β} {y : β} :
    (a >>= f) vm = .ok y vm' ↔ ∃ x vm₁, a vm = .ok x vm₁ ∧ f x vm₁ = .ok y vm' := by
  cases h : a vm with
  | ok x vm₁ =>
    rw [bind_ok h]
    constructor
    · exact fun hf => ⟨x, vm₁, rfl, hf⟩
    · rintro ⟨_, _, ⟨⟩, hf⟩
      exact hf
  | error e vm₁ =>
    rw [bind_error h]
    simp

theorem bind_eq_error {a : Action α} {f : α → Action β} {s : Stop} :
    (a >>= f) vm = .error s vm' ↔
      a vm = .error s vm' ∨ ∃ x vm₁, a vm = .ok x vm₁ ∧ f x vm₁ = .error s vm' := by
  cases h : a vm with
  | ok x vm₁ =>
    rw [bind_ok h]
    constructor
    · exact fun hf => .inr ⟨x, vm₁, rfl, hf⟩
    · rintro (h | ⟨_, _, ⟨⟩, hf⟩)
      · cases h
      · exact hf
  | error e vm₁ =>
    rw [bind_error h]
    simp

theorem pure_eq_ok {x y : α} : (pure x : Action α) vm = .ok y vm' ↔ x = y ∧ vm = vm' := by
  show EStateM.Result.ok x vm = _ ↔ _
  simp

end Action

/-- An action that leaves everything as it is. -/
class Reads {α : Type} (a : Action α) : Prop where
  state : ∀ vm, final (a vm) = vm

namespace Reads

variable {α β : Type}

theorem of_ok {a : Action α} [h : Reads a] {vm vm' : Vm} {x : α} (hrun : a vm = .ok x vm') :
    vm' = vm := by
  have hstate := h.state vm
  rwa [hrun] at hstate

theorem cases (a : Action α) [h : Reads a] (vm : Vm) :
    (∃ x, a vm = .ok x vm) ∨ ∃ e, a vm = .error e vm := by
  have hstate := h.state vm
  cases hrun : a vm with
  | ok x vm' =>
    rw [hrun] at hstate
    exact .inl ⟨x, congrArg _ hstate⟩
  | error e vm' =>
    rw [hrun] at hstate
    exact .inr ⟨e, congrArg _ hstate⟩

theorem bind_eq_ok {a : Action α} [Reads a] {f : α → Action β} {vm vm' : Vm} {y : β}
    (h : (a >>= f) vm = .ok y vm') : ∃ x, a vm = .ok x vm ∧ f x vm = .ok y vm' := by
  obtain ⟨x, vm₁, ha, hf⟩ := Action.bind_eq_ok.mp h
  obtain rfl := of_ok ha
  exact ⟨x, ha, hf⟩

instance return_ (x : α) : Reads (pure x : Action α) := ⟨fun _ => rfl⟩

instance fails (e : Stop) : Reads (throw e : Action α) := ⟨fun _ => rfl⟩

instance raise (e : Error) : Reads (Action.raise e : Action α) := ⟨fun _ => rfl⟩

instance fatal (f : Fatal) : Reads (Action.fatal f : Action α) := ⟨fun _ => rfl⟩

instance current : Reads (get : Action Vm) := ⟨fun _ => rfl⟩

instance bind (a : Action α) (f : α → Action β) [ha : Reads a] [hf : ∀ x, Reads (f x)] :
    Reads (a >>= f) where
  state vm := by
    have hstate := ha.state vm
    cases h : a vm with
    | ok x vm' =>
      rw [h] at hstate
      rw [bind_ok h]
      exact ((hf x).state vm').trans hstate
    | error e vm' =>
      rw [h] at hstate
      rw [bind_error h]
      exact hstate

/-- What stands after a failure does not matter. -/
instance raise_bind (e : Error) (f : α → Action β) : Reads ((Action.raise e : Action α) >>= f) :=
  ⟨fun _ => rfl⟩

instance fails_bind (e : Stop) (f : α → Action β) : Reads ((throw e : Action α) >>= f) :=
  ⟨fun _ => rfl⟩

/-- For an action whose result the next one inspects. -/
theorem after {a : Action α} {f : α → Action β} [Reads a] (h : ∀ x, Reads (f x)) :
    Reads (a >>= f) :=
  inferInstance

instance ofHeap (f : Heap → Except Fatal α) : Reads (Action.ofHeap f) where
  state vm := by
    unfold Action.ofHeap
    cases f vm.heap <;> rfl

instance payload (r : Ref) : Reads (Vm.payload r) := by
  unfold Vm.payload; infer_instance

instance require (slot : Slot) (pick : Slots → Option α) (r : Ref) :
    Reads (Vm.require slot pick r) := by
  unfold Vm.require; infer_instance

instance className (r : Ref) : Reads (Vm.className r) := by
  unfold Vm.className; infer_instance

instance nil : Reads Vm.nil := ⟨fun _ => rfl⟩

instance bool (b : Bool) : Reads (Vm.bool b) := ⟨fun _ => rfl⟩

instance mismatch (expected : String) (found : Ref) :
    Reads (Vm.mismatch expected found : Action α) := by
  unfold Vm.mismatch; infer_instance

instance codeUnit (code : Ref) : Reads (Vm.codeUnit code) := by
  unfold Vm.codeUnit
  refine after fun p => ?_
  cases p <;> infer_instance

instance readVar (var : Ref) : Reads (Vm.readVar var) := by
  unfold Vm.readVar
  refine after fun p => ?_
  cases p <;> infer_instance

instance numberOf (r : Ref) : Reads (Vm.numberOf r) := by
  unfold Vm.numberOf
  refine after fun p => ?_
  split <;> infer_instance

instance intOf (r : Ref) : Reads (Vm.intOf r) := by
  unfold Vm.intOf
  refine after fun p => ?_
  cases p <;> infer_instance

instance bytesOf (r : Ref) : Reads (Vm.bytesOf r) := by
  unfold Vm.bytesOf
  refine after fun p => ?_
  cases p <;> infer_instance

instance textOf (r : Ref) : Reads (Vm.textOf r) := by
  unfold Vm.textOf; infer_instance

instance itemsOf (r : Ref) : Reads (Vm.itemsOf r) := by
  unfold Vm.itemsOf
  refine after fun p => ?_
  cases p <;> infer_instance

instance tableOf (r : Ref) : Reads (Vm.tableOf r) := by
  unfold Vm.tableOf
  refine after fun p => ?_
  cases p <;> infer_instance

instance taskOf (r : Ref) : Reads (Vm.taskOf r) := by
  unfold Vm.taskOf
  refine after fun p => ?_
  cases p <;> infer_instance

instance compare (a b : Ref) : Reads (Vm.compare a b) := by
  unfold Vm.compare
  refine after fun o => ?_
  cases o <;> infer_instance

instance equals (a b : Ref) : Reads (Vm.equals a b) := by
  unfold Vm.equals; infer_instance

instance truthy (r : Ref) : Reads (Vm.truthy r) := by
  unfold Vm.truthy; infer_instance

instance display (r : Ref) : Reads (Vm.display r) := by
  unfold Vm.display; infer_instance

instance getSlot? (obj : Ref) (i : Nat) : Reads (Vm.getSlot? obj i) := by
  unfold Vm.getSlot?
  refine after fun p => ?_
  cases p <;> infer_instance

instance pack (r : Ref) : Reads (Vm.pack r) where
  state vm := by
    unfold Vm.pack
    cases vm.heap.pack r <;> rfl

instance displayLine (values : List Ref) : Reads (Vm.displayLine values) := by
  unfold Vm.displayLine; infer_instance

instance superOf (r : Ref) : Reads (Vm.superOf r) := by
  unfold Vm.superOf
  refine after fun p => ?_
  cases p <;> infer_instance

instance expectClass (r : Ref) : Reads (Vm.expectClass r) := by
  unfold Vm.expectClass
  refine after fun p => ?_
  cases p <;> infer_instance

instance toInt (r : Ref) : Reads (Vm.toInt r) := by
  unfold Vm.toInt
  refine after fun p => ?_
  cases p with
  | str b =>
    dsimp only
    split <;> infer_instance
  | _ => infer_instance

instance toFloat (r : Ref) : Reads (Vm.toFloat r) := by
  unfold Vm.toFloat
  refine after fun p => ?_
  cases p with
  | str b =>
    dsimp only
    split <;> infer_instance
  | _ => infer_instance

instance requestSpawn (callable : Ref) : Reads (Vm.requestSpawn callable) := by
  unfold Vm.requestSpawn; infer_instance

instance requestJoin (target : Ref) : Reads (Vm.requestJoin target) := by
  unfold Vm.requestJoin
  refine after fun t => after fun vm => ?_
  dsimp only
  split
  · infer_instance
  · split <;> infer_instance

instance callee (method : Ref) : Reads (Vm.callee method) := by
  unfold Vm.callee
  refine after fun p => ?_
  cases p with
  | method m =>
    dsimp only
    cases m.body <;> infer_instance
  | _ => infer_instance

instance isBytecode (r : Ref) : Reads (Vm.isBytecode r) := by
  unfold Vm.isBytecode
  refine after fun p => ?_
  cases p with
  | method m =>
    dsimp only
    cases m.body <;> infer_instance
  | _ => infer_instance

instance top : Reads Vm.top := by
  unfold Vm.top
  refine after fun vm => ?_
  split <;> infer_instance

instance need (n : Nat) : Reads (Vm.need n) := by
  unfold Vm.need
  refine after fun f => after fun vm => ?_
  split <;> infer_instance

instance below (n : Nat) : Reads (Vm.below n) := by
  unfold Vm.below
  refine after fun vm => ?_
  dsimp only
  split <;> infer_instance

instance peek (n : Nat) : Reads (Vm.peek n) := by
  unfold Vm.peek
  refine after fun _ => after fun height => after fun vm => ?_
  split <;> infer_instance

instance peekMany (n : Nat) : Reads (Vm.peekMany n) := by
  unfold Vm.peekMany; infer_instance

instance constant (index : UInt8) : Reads (Vm.constant index) := by
  unfold Vm.constant
  refine after fun f => after fun p => ?_
  cases p with
  | code c =>
    dsimp only
    split <;> infer_instance
  | _ => infer_instance

instance nameAt (index : UInt8) : Reads (Vm.nameAt index) := by
  unfold Vm.nameAt
  refine after fun f => ?_
  split <;> infer_instance

instance frameVar? (frame : Ref) (name : String) : Reads (Vm.frameVar? frame name) := by
  unfold Vm.frameVar?
  refine after fun p => ?_
  cases p <;> infer_instance

instance moduleVar? (module : Option Ref) (name : String) : Reads (Vm.moduleVar? module name) := by
  unfold Vm.moduleVar?
  cases module with
  | none => exact return_ none
  | some m =>
    refine after fun p => ?_
    cases p <;> infer_instance

instance scopedVar? (name : String) : Reads (Vm.scopedVar? name) := by
  unfold Vm.scopedVar?
  refine after fun f => after fun found => ?_
  cases found <;> infer_instance

instance loadName (name : String) : Reads (Vm.loadName name) := by
  unfold Vm.loadName
  refine after fun found => ?_
  cases found with
  | some var =>
    refine after fun value => ?_
    cases value <;> infer_instance
  | none =>
    refine after fun vm => ?_
    split
    · infer_instance
    · split <;> infer_instance

instance captureVars (names : List String) (vars : NameMap Ref) :
    Reads (Vm.captureVars names vars) := by
  induction names generalizing vars with
  | nil => exact return_ vars
  | cons name rest ih =>
    unfold Vm.captureVars
    refine after fun found => ?_
    cases found <;> infer_instance

end Reads

namespace Vm

variable {vm vm' : Vm}

theorem payload_eq_ok {r : Ref} {p : Payload} :
    payload r vm = .ok p vm' ↔ vm.heap.payload r = .ok p ∧ vm = vm' := by
  unfold payload Action.ofHeap
  cases h : vm.heap.payload r <;> simp [h]

theorem top_eq_ok {f : ActiveFrame} :
    top vm = .ok f vm' ↔ vm.frames.back? = some f ∧ vm = vm' := by
  have hget : (get : Action Vm) vm = .ok vm vm := rfl
  unfold top
  rw [bind_ok hget]
  cases vm.frames.back? with
  | some g => simp [pure_eq_ok]
  | none =>
    constructor
    · rintro ⟨⟩
    · rintro ⟨⟨⟩, -⟩

theorem below_eq_ok {n height : Nat} (h : below n vm = .ok height vm') :
    height = vm.stack.size - n ∧ n ≤ vm.stack.size := by
  unfold below at h
  obtain ⟨_, ⟨⟩, h⟩ := Reads.bind_eq_ok h
  by_cases hn : n ≤ vm.stack.size
  · simp only [if_pos hn] at h
    obtain ⟨rfl, -⟩ := pure_eq_ok.mp h
    exact ⟨rfl, hn⟩
  · simp only [if_neg hn] at h
    cases h

theorem drop_eq_ok {n : Nat} {u : Unit} (h : drop n vm = .ok u vm') :
    vm' = { vm with stack := vm.stack.shrink (vm.stack.size - n) } := by
  unfold drop at h
  obtain ⟨height, hbelow, h⟩ := Reads.bind_eq_ok h
  obtain ⟨rfl, -⟩ := below_eq_ok hbelow
  cases h
  rfl

theorem peek_eq_ok {n : Nat} {r : Ref} (h : peek n vm = .ok r vm') :
    n < vm.stack.size ∧ vm.stack[vm.stack.size - (n + 1)]? = some r := by
  unfold peek at h
  obtain ⟨_, -, h⟩ := Reads.bind_eq_ok h
  obtain ⟨height, hbelow, h⟩ := Reads.bind_eq_ok h
  obtain ⟨rfl, hn⟩ := below_eq_ok hbelow
  obtain ⟨_, ⟨⟩, h⟩ := Reads.bind_eq_ok h
  cases hx : vm.stack[vm.stack.size - (n + 1)]? with
  | none =>
    rw [hx] at h
    cases h
  | some x =>
    rw [hx] at h
    obtain ⟨rfl, -⟩ := pure_eq_ok.mp h
    exact ⟨by omega, rfl⟩

/-- The operand that is taken is the top one. -/
theorem pop_eq_ok {r : Ref} (h : pop vm = .ok r vm') :
    vm.stack.back? = some r ∧ vm' = { vm with stack := vm.stack.shrink (vm.stack.size - 1) } := by
  unfold pop at h
  obtain ⟨x, hpeek, h⟩ := Reads.bind_eq_ok h
  obtain ⟨_, vm₂, hdrop, h⟩ := bind_eq_ok.mp h
  obtain ⟨rfl, rfl⟩ := pure_eq_ok.mp h
  exact ⟨(peek_eq_ok hpeek).2, drop_eq_ok hdrop⟩

theorem nameAt_eq_ok {index : UInt8} {name : String} :
    nameAt index vm = .ok name vm' ↔
      (∃ f, vm.frames.back? = some f ∧ f.unit.names[index.toNat]? = some name) ∧ vm = vm' := by
  unfold nameAt
  simp only [bind_eq_ok, top_eq_ok]
  constructor
  · rintro ⟨f, _, ⟨hf, rfl⟩, h⟩
    cases hn : f.unit.names[index.toNat]? with
    | none =>
      rw [hn] at h
      cases h
    | some n =>
      rw [hn] at h
      obtain ⟨rfl, rfl⟩ := pure_eq_ok.mp h
      exact ⟨⟨f, hf, hn⟩, rfl⟩
  · rintro ⟨⟨f, hf, hname⟩, rfl⟩
    refine ⟨f, vm, ⟨hf, rfl⟩, ?_⟩
    rw [hname]
    rfl

theorem codeUnit_eq_ok {code : Ref} {unit : CodeUnit} :
    codeUnit code vm = .ok unit vm' ↔
      (∃ c, vm.heap.payload code = .ok (.code c) ∧ c.unit = unit) ∧ vm = vm' := by
  unfold codeUnit
  simp only [bind_eq_ok, payload_eq_ok]
  constructor
  · rintro ⟨p, _, ⟨hp, rfl⟩, h⟩
    cases p with
    | code c =>
      obtain ⟨rfl, rfl⟩ := pure_eq_ok.mp h
      exact ⟨⟨c, hp, rfl⟩, rfl⟩
    | _ => cases h
  · rintro ⟨⟨c, hc, rfl⟩, rfl⟩
    exact ⟨.code c, vm, ⟨hc, rfl⟩, rfl⟩

end Vm

end ObjectMachine
