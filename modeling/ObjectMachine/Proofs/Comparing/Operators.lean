import ObjectMachine.Proofs.Comparing.Values
import ObjectMachine.Proofs.Copying.RoundTrip
import ObjectMachine.Proofs.Machine.CallEnds

/-!
# ObjectMachine.Proofs.Comparing.Operators

Comparison is a partial order, and the six comparison instructions are consistent.

* `PartialOrdering` — what a three-way comparison owes on some values.
* `Heap.Decides` — what an instruction answers about two operands, whatever else is on the stack.
* `Vm.comparison_partial_order` — the result.
-/

namespace ObjectMachine

/-- On the values with `P` the comparison is a partial order up to equality. -/
structure PartialOrdering {α : Type} (P : α → Prop) (ord : α → α → Option Ordering) : Prop where
  refl : ∀ x, P x → ord x x = some .eq
  /-- Both sides have an answer, one the reverse of the other, or neither has. -/
  swap : ∀ x y, P x → P y → ord y x = (ord x y).map Ordering.swap
  eq_trans : ∀ x y z, P x → P y → P z → ord x y = some .eq → ord y z = some .eq →
    ord x z = some .eq
  /-- Equal values have the same values above them, -/
  eq_lt : ∀ x y z, P x → P y → P z → ord x y = some .eq → ord y z = some .lt → ord x z = some .lt
  /-- and the same values below them. -/
  lt_eq : ∀ x y z, P x → P y → P z → ord x y = some .lt → ord y z = some .eq → ord x z = some .lt
  lt_trans : ∀ x y z, P x → P y → P z → ord x y = some .lt → ord y z = some .lt →
    ord x z = some .lt

theorem Consistent.partialOrdering {α : Type} {P : α → Prop} {c : α → α → Option Ordering}
    (hc : Consistent P c) (hrefl : ∀ x, P x → c x x = some .eq) : PartialOrdering P c where
  refl := hrefl
  swap _ _ hx hy := hc.swap hx hy
  eq_trans _ _ _ hx hy hz hxy hyz := hc.eq_trans hx hy hz hxy hyz
  eq_lt _ _ _ hx hy hz hxy hyz := hc.comp hx hy hz hxy hyz nofun nofun
  lt_eq _ _ _ hx hy hz hxy hyz := hc.comp hx hy hz hxy hyz nofun nofun
  lt_trans _ _ _ hx hy hz hxy hyz := hc.comp hx hy hz hxy hyz nofun nofun

/-! ### The comparison instructions -/

namespace Op

/-- The six comparison instructions. -/
def comparisons : List Op := [.eq, .neq, .lt, .lte, .gt, .gte]

/-- What a comparison instruction makes of an order; none is a failure. -/
def verdict : Op → Option Ordering → Option Bool
  | .eq, o => some (o == some .eq)
  | .neq, o => some (o != some .eq)
  | op, o => o.map (Vm.orderHolds op)

/-- The same question with the operands turned round. -/
def converse : Op → Op
  | .lt => .gt
  | .lte => .gte
  | .gt => .lt
  | .gte => .lte
  | op => op

/-- The opposite question. -/
def complement : Op → Op
  | .eq => .neq
  | .neq => .eq
  | .lt => .gte
  | .lte => .gt
  | .gt => .lte
  | .gte => .lt
  | op => op

variable {op : Op}

theorem converse_mem (hop : op ∈ comparisons) : op.converse ∈ comparisons := by
  revert op
  decide

theorem complement_mem (hop : op ∈ comparisons) : op.complement ∈ comparisons := by
  revert op
  decide

theorem verdict_converse (hop : op ∈ comparisons) (o : Option Ordering) :
    op.converse.verdict (o.map Ordering.swap) = op.verdict o := by
  simp only [comparisons, List.mem_cons, List.not_mem_nil, or_false] at hop
  rcases hop with rfl | rfl | rfl | rfl | rfl | rfl <;> rcases o with _ | ⟨_ | _ | _⟩ <;> rfl

theorem verdict_complement (hop : op ∈ comparisons) (o : Option Ordering) :
    op.complement.verdict o = (op.verdict o).map (!·) := by
  simp only [comparisons, List.mem_cons, List.not_mem_nil, or_false] at hop
  rcases hop with rfl | rfl | rfl | rfl | rfl | rfl <;> rcases o with _ | ⟨_ | _ | _⟩ <;> rfl

end Op

/-- With `a` and `b` on top of the stack of a running frame, the instruction puts the answer in
their place; without an answer it fails and leaves everything as it was. -/
def Heap.Decides (h : Heap) (op : Op) (a b : Ref) (answer : Option Bool) : Prop :=
  ∀ (vm : Vm) (f : ActiveFrame) (below : Array Ref) (i : Instr), vm.heap = h →
    vm.frames.back? = some f → f.base ≤ below.size → vm.stack = (below.push a).push b →
    answer.elim
      (∃ left right, Vm.execute op i vm = .error (.raised (.notComparable left right)) vm)
      fun v => Vm.execute op i vm = .ok .next { vm with stack := below.push (boolRef h.id v) }

namespace Vm

variable {vm : Vm} {a b : Ref}

open ObjectMachine.Action

theorem ofHeap_run {α : Type} {g : Heap → Except Fatal α} {x : α} (h : g vm.heap = .ok x) :
    Action.ofHeap g vm = .ok x vm := by
  unfold Action.ofHeap
  rw [h]

/-- An object that is compared by its kind has a class with a name. -/
theorem className_run {p : Payload} (ha : vm.heap.Answers a p) :
    ∃ name, className a vm = .ok name vm := by
  obtain ⟨k, slot, hget, hslot, -⟩ := ha
  have hcls : ∃ c, vm.heap.cls k = .ok c := by
    cases hc : vm.heap.cls k with
    | ok c => exact ⟨c, rfl⟩
    | error e => simp [Heap.findSlot, Heap.findInChain, Heap.findFrom, hc] at hslot
  obtain ⟨c, hc⟩ := hcls
  have hname : vm.heap.className a = .ok c.name := by
    have hclass : vm.heap.classOf a = .ok k := by rw [Heap.classOf, hget]
    simp only [Heap.className, hclass, Bind.bind, Except.bind, hc, pure, Except.pure]
  exact ⟨c.name, ofHeap_run hname⟩

theorem compare_run {o : Ordering} (h : vm.heap.compare a b = .ok (some o)) :
    compare a b vm = .ok o vm := by
  unfold compare
  rw [bind_ok (ofHeap_run h)]
  rfl

theorem compare_fails {p q : Payload} (ha : vm.heap.Answers a p) (hb : vm.heap.Answers b q)
    (h : vm.heap.compare a b = .ok none) :
    ∃ left right, compare a b vm = .error (.raised (.notComparable left right)) vm := by
  obtain ⟨left, hleft⟩ := className_run ha
  obtain ⟨right, hright⟩ := className_run hb
  refine ⟨left, right, ?_⟩
  unfold compare
  rw [bind_ok (ofHeap_run h)]
  show (className a >>= fun left => className b >>= fun right =>
    Action.raise (.notComparable left right) : Action Ordering) vm = _
  rw [bind_ok hleft, bind_ok hright]
  rfl

/-- The four instructions that ask for an order differ in what they make of it. -/
theorem execute_order {op : Op} (hop : op = .lt ∨ op = .lte ∨ op = .gt ∨ op = .gte) (i : Instr) :
    execute op i = (do
      let a ← peek 1
      let b ← peek 0
      let o ← compare a b
      let v ← bool (orderHolds op o)
      replace 2 v
      return .next) := by
  rcases hop with rfl | rfl | rfl | rfl <;> rfl

end Vm

namespace Heap

variable {h : Heap} {a b : Ref} {o : Option Ordering}

open ObjectMachine.Action

/-- Equality always has an answer. -/
theorem decides_equality (hcmp : h.compare a b = .ok o) {op : Op} (hop : op = .eq ∨ op = .neq) :
    h.Decides op a b (op.verdict o) := by
  rintro vm f below i rfl hf hbase hstack
  have hb : Vm.pop vm = .ok b (vm.restack (below.push a)) :=
    Vm.pop_run hf (by simp; omega) hstack
  have ha : Vm.pop (vm.restack (below.push a)) = .ok a (vm.restack below) :=
    Vm.pop_run hf hbase rfl
  have heq : Vm.equals a b (vm.restack below) = .ok (o == some .eq) (vm.restack below) := by
    apply Vm.ofHeap_run
    show vm.heap.equals a b = _
    rw [equals, hcmp]
  rcases hop with rfl | rfl <;>
  · unfold Vm.execute
    show (_ >>= _ : Action Flow) vm = _
    rw [bind_ok hb, bind_ok ha, bind_ok heq]
    rfl

theorem decides_order {p q : Payload} (ha : h.Answers a p) (hb : h.Answers b q)
    (hcmp : h.compare a b = .ok o) {op : Op} (hop : op = .lt ∨ op = .lte ∨ op = .gt ∨ op = .gte) :
    h.Decides op a b (o.map (Vm.orderHolds op)) := by
  rintro vm f below i rfl hf hbase hstack
  have hpeek₁ : Vm.peek 1 vm = .ok a vm := by
    apply Vm.peek_run hf
    · simp [hstack]
      omega
    · simp [hstack, Array.getElem_push]
  have hpeek₀ : Vm.peek 0 vm = .ok b vm := by
    apply Vm.peek_run hf
    · simp [hstack]
      omega
    · simp [hstack, Array.getElem_push]
  rw [Vm.execute_order hop]
  cases o with
  | none =>
    obtain ⟨left, right, hfail⟩ := Vm.compare_fails ha hb hcmp
    refine ⟨left, right, ?_⟩
    rw [bind_ok hpeek₁, bind_ok hpeek₀, bind_error hfail]
  | some o =>
    have hreplace : ∀ v, Vm.replace 2 v vm = .ok () (vm.restack (below.push v)) :=
      @Vm.replace_run vm below #[a, b] (by rw [hstack]; apply Array.toList_inj.mp; simp)
    show _ = _
    rw [bind_ok hpeek₁, bind_ok hpeek₀, bind_ok (Vm.compare_run hcmp)]
    show (Vm.replace 2 (boolRef vm.heap.id (Vm.orderHolds op o)) >>= fun _ => pure Flow.next) vm = _
    rw [bind_ok (hreplace _)]
    rfl

theorem decides_comparison {p q : Payload} (ha : h.Answers a p) (hb : h.Answers b q)
    (hcmp : h.compare a b = .ok o) {op : Op} (hop : op ∈ Op.comparisons) :
    h.Decides op a b (op.verdict o) := by
  simp only [Op.comparisons, List.mem_cons, List.not_mem_nil, or_false] at hop
  rcases hop with rfl | rfl | rfl | rfl | rfl | rfl
  · exact decides_equality hcmp (.inl rfl)
  · exact decides_equality hcmp (.inr rfl)
  · exact decides_order ha hb hcmp (.inl rfl)
  · exact decides_order ha hb hcmp (.inr (.inl rfl))
  · exact decides_order ha hb hcmp (.inr (.inr (.inl rfl)))
  · exact decides_order ha hb hcmp (.inr (.inr (.inr rfl)))

theorem Value.answers (hs : h.BuiltinOrder) {m : Nat} (ha : h.Value m a) : ∃ p, h.Answers a p := by
  cases m with
  | zero => exact ha.elim
  | succ m =>
    obtain ⟨p, hp, -⟩ := ha
    exact ⟨p, hs.answers hp⟩

end Heap

namespace Vm

/-- On values without floats, not nested deeper than what can be sent and without equal keys,
comparison always comes to an end and is a partial order. The comparison instructions say what it
says; a question and its converse about the operands turned round have one answer, and a question
and its opposite have opposite answers, or all fail. -/
theorem comparison_partial_order (vm : Vm) (hslots : vm.heap.BuiltinOrder)
    (hnest : vm.heap.nesting ≤ maxPackDepth) :
    ∃ ord : Ref → Ref → Option Ordering,
      (∀ a b, vm.heap.Value (maxPackDepth + 1) a → vm.heap.Value (maxPackDepth + 1) b →
        vm.heap.compare a b = .ok (ord a b)) ∧
      PartialOrdering (vm.heap.Value (maxPackDepth + 1)) ord ∧
      ∀ a b, vm.heap.Value (maxPackDepth + 1) a → vm.heap.Value (maxPackDepth + 1) b →
        ∀ op ∈ Op.comparisons,
          vm.heap.Decides op a b (op.verdict (ord a b)) ∧
          vm.heap.Decides op.converse b a (op.verdict (ord a b)) ∧
          vm.heap.Decides op.complement a b ((op.verdict (ord a b)).map (!·)) := by
  have hlevels : maxPackDepth + 1 + vm.heap.nesting ≤ maxCompareDepth + 1 := by
    unfold maxCompareDepth
    omega
  have hc := Heap.order_consistent hslots hlevels
  have hcompare : ∀ a b, vm.heap.Value (maxPackDepth + 1) a →
      vm.heap.Value (maxPackDepth + 1) b →
      vm.heap.compare a b = .ok (vm.heap.order (maxPackDepth + 1) a b) := by
    intro a b ha hb
    exact Heap.compareWithin_of_nests (ha.nests hslots) (hb.nests hslots) (by omega)
  refine ⟨vm.heap.order (maxPackDepth + 1), hcompare,
    hc.partialOrdering fun x _ => Heap.order_self _, ?_⟩
  intro a b ha hb op hop
  obtain ⟨p, hpa⟩ := ha.answers hslots
  obtain ⟨q, hqb⟩ := hb.answers hslots
  have hab := hcompare a b ha hb
  have hba := hcompare b a hb ha
  refine ⟨Heap.decides_comparison hpa hqb hab hop, ?_, ?_⟩
  · rw [← Op.verdict_converse hop, ← hc.swap ha hb]
    exact Heap.decides_comparison hqb hpa hba (Op.converse_mem hop)
  · rw [← Op.verdict_complement hop]
    exact Heap.decides_comparison hpa hqb hab (Op.complement_mem hop)

theorem value_truths_bool (m : Nat) (b : Bool) : withTruths.heap.Value (m + 1) (boolRef 0 b) :=
  ⟨_, payload_truths_bool b, by rintro _ ⟨⟩, by rintro _ ⟨⟩, by simp [Payload.parts]⟩

theorem value_truths_nil (m : Nat) : withTruths.heap.Value (m + 1) (nilRef 0) :=
  ⟨_, payload_truths_nil, by rintro _ ⟨⟩, by rintro _ ⟨⟩, by simp [Payload.parts]⟩

theorem value_truths : withTruths.heap.Value (maxPackDepth + 1) truthsRef := by
  refine ⟨_, payload_truths, by rintro _ ⟨⟩, ?_, ?_⟩
  · rintro t ⟨⟩
    have hkeys : truths.keys.toList = [boolRef 0 true, boolRef 0 false] := by
      simp [truths, HashTable.keys]
    rw [Heap.KeysUnequal, hkeys, List.pairwise_pair]
    exact equals_truths true false
  · intro x hx
    simp only [Payload.parts, truths, HashTable.keys, HashTable.values, List.map_toArray,
      List.map_cons, List.map_nil, List.cons_append, List.nil_append, List.mem_cons,
      List.not_mem_nil, or_false] at hx
    rcases hx with rfl | rfl | rfl | rfl
    · exact value_truths_bool _ true
    · exact value_truths_bool _ false
    · exact value_truths_nil _
    · exact value_truths_nil _

/-- A hash equals itself, and false is less than true. -/
theorem comparison_partial_order_truths :
    withTruths.heap.BuiltinOrder ∧ withTruths.heap.nesting ≤ maxPackDepth ∧
    withTruths.heap.Decides .eq truthsRef truthsRef (some true) ∧
    withTruths.heap.Decides .gt (boolRef 0 true) (boolRef 0 false) (some true) := by
  have hslots := withTruths_regular.heap.toByKind.builtinOrder
  have hnest : withTruths.heap.nesting ≤ maxPackDepth := by
    rw [withTruths_regular.heap.nesting]
    exact Nat.zero_le _
  obtain ⟨ord, hcompare, hord, hdecides⟩ := comparison_partial_order withTruths hslots hnest
  have htruths := value_truths
  have hbool := value_truths_bool maxPackDepth
  have hlt : ord (boolRef 0 false) (boolRef 0 true) = some .lt := by
    have hcmp : withTruths.heap.compare (boolRef 0 false) (boolRef 0 true) = .ok (some .lt) := by
      decide +kernel
    rw [hcompare _ _ (hbool false) (hbool true)] at hcmp
    exact Except.ok.inj hcmp
  refine ⟨hslots, hnest, ?_, ?_⟩
  · have heq := (hdecides _ _ htruths htruths .eq (by decide)).1
    rwa [hord.refl _ htruths] at heq
  · have hgt := (hdecides _ _ (hbool false) (hbool true) .lt (by decide)).2.1
    rwa [hlt] at hgt

end Vm
end ObjectMachine
