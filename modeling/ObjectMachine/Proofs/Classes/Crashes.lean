import Mathlib.Algebra.Group.Nat.Defs
import ObjectMachine.Proofs.Classes.Attributes

/-!
# ObjectMachine.Proofs.Classes.Crashes

What ends the system when values are operated on.

An operator that no class of the chain has is fatal. Besides, two operations can need more memory
than one allocation can have: a repeated string, and an instance with many slots. Comparison and
truth never end the system.

* `Payload.overlong` — a string repeated too often.
* `Heap.Lacks` — the failure of an operator that a chain does not have.
* `Vm.binary_aborts`, `Vm.getItem_aborts`, `Vm.compare_recovers` — the operations.
* `Vm.binary_ints` — arithmetic on integers is exact modulo `2 ^ 64`.
* `Session.operations_abort` — so it is in every run.
-/

namespace ObjectMachine

open ObjectMachine.Action

/-- A string repeated so often that the bytes have no room. -/
def Payload.overlong : Payload → Payload → Bool
  | .str b, .int n => b.size * n.toInt.toNat > maxBytes
  | _, _ => false

theorem Payload.overlong_eq_true {p q : Payload} :
    p.overlong q = true ↔ ∃ b n, p = .str b ∧ q = .int n ∧ b.size * n.toInt.toNat > maxBytes := by
  constructor
  · intro h
    unfold overlong at h
    split at h
    · exact ⟨_, _, rfl, rfl, of_decide_eq_true h⟩
    · cases h
  · rintro ⟨b, n, rfl, rfl, h⟩
    exact decide_eq_true h

/-- The chain of a class does not have a function; the failure of an operator that needs it. -/
def Heap.Lacks {α : Type} (h : Heap) (slot : Slot) (pick : Slots → Option α) (k : Ref)
    (stop : Stop) : Prop :=
  h.findSlot pick k = .ok none ∧ ∃ c, h.cls k = .ok c ∧ stop = .fatal (.missingSlot c.name slot)

/-- The result of an operation as an integer of any size; division is cut off. -/
def Arith.exact : Arith → Int → Int → Int
  | .add, x, y => x + y
  | .sub, x, y => x - y
  | .mul, x, y => x * y
  | .div, x, y => x.tdiv y

theorem Arith.onInts_exact {op : Arith} {i j v : Int64} (h : op.onInts i j = some v) :
    v.toInt = (op.exact i.toInt j.toInt).bmod (2 ^ 64) := by
  cases op with
  | add => cases h; exact Int64.toInt_add i j
  | sub => cases h; exact Int64.toInt_sub i j
  | mul => cases h; exact Int64.toInt_mul i j
  | div =>
    obtain ⟨-, h⟩ := Option.ite_none_left_eq_some.mp h
    cases h
    exact Int64.toInt_div i j

theorem Arith.onInts_eq_none {op : Arith} {i j : Int64} :
    op.onInts i j = none ↔ op = .div ∧ j = 0 := by
  cases op <;> simp [onInts]

theorem Slots.chained_arithSlot (op : Arith) : Slots.Chained (Vm.arithSlot op) := fun _ => by
  cases op <;> rfl

namespace Vm

variable {vm : Vm} {a b : Ref}

/-! ## Arithmetic -/

theorem arith_recovers (hlive : vm.Live) (op : Arith) (ha : vm.heap.contains a = true)
    (hb : vm.heap.contains b = true) : Recovers (arith op a b vm) := by
  refine (numberOf_recovers hlive ha).reading fun x =>
    (numberOf_recovers hlive hb).reading fun y => ?_
  cases x with
  | float x => exact Sure.recovers (newFloat _) vm
  | int i =>
    cases y with
    | float y => exact Sure.recovers (newFloat _) vm
    | int j =>
      dsimp only
      cases op.onInts i j with
      | some v => exact Sure.recovers (newInt v) vm
      | none => exact .raise _

/-- A repeated string must have room. -/
theorem strMul_aborts (hlive : vm.Live) {p q : Payload} (hp : vm.heap.payload a = .ok p)
    (hq : vm.heap.payload b = .ok q) (ha : vm.heap.contains a = true)
    (hb : vm.heap.contains b = true) :
    Aborts (runBinary .strMul a b vm) fun stop => p.overlong q ∧ stop = .crashed := by
  unfold runBinary intOf
  rw [bind_assoc]
  refine .inspecting hq ?_
  cases q with
  | int n =>
    unfold bytesOf
    simp only [pure_bind, bind_assoc]
    refine .inspecting hp ?_
    cases p with
    | str x =>
      by_cases hroom : x.size * n.toInt.toNat > maxBytes
      · simp only [pure_bind, if_pos hroom]
        exact .of_error rfl fun s => ⟨fun h => h.2, fun h => ⟨decide_eq_true hroom, h⟩⟩
      · simp only [pure_bind, if_neg hroom]
        exact .of_recovers (Sure.recovers (newBytes _) vm) fun s h => hroom (of_decide_eq_true h.1)
    | _ =>
      refine .of_recovers (mismatch_bind_recovers hlive "string" ha _) ?_
      rintro s ⟨⟨⟩, -⟩
  | _ =>
    refine .of_recovers (mismatch_bind_recovers hlive "int" hb _) fun s h => ?_
    obtain ⟨_, _, -, ⟨⟩, -⟩ := Payload.overlong_eq_true.mp h.1

/-- The other operators never end the system. -/
theorem runBinary_recovers (hlive : vm.Live) {f : BinaryFn} (hf : f ≠ .strMul)
    (ha : vm.heap.contains a = true) (hb : vm.heap.contains b = true) :
    Recovers (runBinary f a b vm) := by
  cases f with
  | number op => exact arith_recovers hlive op ha hb
  | strMul => exact absurd rfl hf
  | strAdd =>
    exact (bytesOf_recovers hlive ha).reading fun x =>
      (bytesOf_recovers hlive hb).reading fun y => Sure.recovers (newBytes _) vm
  | arrayAdd =>
    exact (itemsOf_recovers hlive ha).reading fun x =>
      (itemsOf_recovers hlive hb).reading fun y => Sure.recovers (newArray _) vm
  | left => exact .return_ a
  | right => exact .return_ b
  | pair => exact Sure.recovers (newArray [a, b]) vm
  | fail => exact .raise _

/-- The function that a class finds, or else the failure to find it. -/
theorem slot_aborts {α β : Type} {slot : Slot} {pick : Slots → Option α} {k : Ref}
    {family : Option Builtin} (hpick : Slots.Chained pick) (hclassed : vm.heap.Classed)
    (hfamily : vm.heap.Family family k) {ask : Heap → Except Fatal α}
    (hask : ask vm.heap = vm.heap.requireSlot slot pick k) {f : α → Action β} {P : Stop → Prop}
    (hnone : Builtin.inherited pick family = none → ∀ s, ¬ P s)
    (hsome : ∀ x, Builtin.inherited pick family = some x → Aborts (f x vm) P) :
    Aborts ((ofHeap ask >>= f) vm) fun stop => vm.heap.Lacks slot pick k stop ∨ P stop := by
  have hfind := hfamily.findSlot hclassed hpick
  cases hin : Builtin.inherited pick family with
  | some x =>
    refine .asking (hask.trans (hfamily.requireSlot hclassed hpick slot hin)) ?_
    refine (hsome x hin).congr fun s => ⟨.inr, ?_⟩
    rintro (⟨hlack, -⟩ | h)
    · rw [hfind, hin] at hlack
      cases hlack
    · exact h
  | none =>
    obtain ⟨c, hc, -⟩ := hfamily.own hclassed
    rw [hin] at hfind
    have hanswer : ask vm.heap = .error (.missingSlot c.name slot) := by
      rw [hask, Heap.requireSlot, hfind]
      exact congrArg (· >>= fun c => throw (Fatal.missingSlot c.name slot)) hc
    have hrun : ofHeap ask vm = .error (.fatal (.missingSlot c.name slot)) vm := by
      unfold ofHeap
      rw [hanswer]
    refine .of_error (bind_error hrun) fun s => ⟨?_, ?_⟩
    · rintro (⟨-, c', hc', rfl⟩ | h)
      · rw [hc] at hc'
        cases hc'
        rfl
      · exact (hnone hin s h).elim
    · rintro rfl
      exact .inl ⟨hfind, c, hc, rfl⟩

/-- An operator ends the system if no class of the chain has it, and a repeated string must have
room. -/
theorem binary_aborts (hlive : vm.Live) (hclassed : vm.heap.Classed) (op : Arith) {o : Obj}
    {q : Payload} (ho : vm.heap.get a = .ok o) (hq : vm.heap.payload b = .ok q) :
    Aborts (binary op a b vm) fun stop =>
      vm.heap.Lacks (arithSlotName op) (arithSlot op) o.cls stop ∨
        op = .mul ∧ o.payload.overlong q ∧ stop = .crashed := by
  have ha : vm.heap.contains a = true := Heap.contains_iff.mpr ⟨o, ho⟩
  have hb : vm.heap.contains b = true := Heap.contains_of_payload hq
  refine slot_aborts (Slots.chained_arithSlot op) hclassed (hclassed.objects a o ho)
    (by rw [Heap.classOf_eq ho]; rfl) ?_ ?_
  · rintro hnone s ⟨rfl, hlong, -⟩
    obtain ⟨x, n, hx, -⟩ := Payload.overlong_eq_true.mp hlong
    rw [hx] at hnone
    cases hnone
  · intro f hf
    have hrepeats : ∀ {x}, o.payload = .str x → op = .mul → f = .strMul := by
      rintro x hx rfl
      rw [hx] at hf
      exact (Option.some.inj hf).symm
    by_cases hmul : f = .strMul
    · subst hmul
      have hop : op = .mul := by
        generalize o.payload.family = k at hf
        cases op <;> cases k <;> first | rfl | cases hf
      refine (strMul_aborts hlive (Heap.payload_eq_ok_iff.mpr ⟨o.cls, ho⟩) hq ha hb).congr ?_
      exact fun s => ⟨fun h => ⟨hop, h⟩, fun h => h.2⟩
    · refine .of_recovers (runBinary_recovers hlive hmul ha hb) ?_
      rintro s ⟨hop, hlong, -⟩
      obtain ⟨x, n, hx, -⟩ := Payload.overlong_eq_true.mp hlong
      exact hmul (hrepeats hx hop)

end Vm

/-! ## Comparison -/

/-- A comparison that has an answer for every two objects of a heap. -/
def Comparison.Settled (cmp : Comparison) (h : Heap) : Prop :=
  ∀ x y, h.contains x = true → h.contains y = true → Answered (cmp x y)

section Comparison

variable {cmp : Comparison} {h : Heap}

theorem compareItems_answered (hcmp : cmp.Settled h) {xs ys : List Ref}
    (hxs : ∀ x ∈ xs, h.contains x = true) (hys : ∀ y ∈ ys, h.contains y = true) :
    Answered (compareItems cmp xs ys) := by
  induction xs generalizing ys with
  | nil => cases ys <;> exact ⟨_, rfl⟩
  | cons x xs ih =>
    cases ys with
    | nil => exact ⟨_, rfl⟩
    | cons y ys =>
      obtain ⟨o, ho⟩ := hcmp x y (hxs x List.mem_cons_self) (hys y List.mem_cons_self)
      have hrest := ih (fun z hz => hxs z (List.mem_cons_of_mem x hz))
        fun z hz => hys z (List.mem_cons_of_mem y hz)
      unfold compareItems
      rw [ho]
      split
      · exact hrest
      · exact ⟨o, rfl⟩

theorem positionIn_answered (hcmp : cmp.Settled h) {key : Ref} (hkey : h.contains key = true)
    {keys : List Ref} (hkeys : ∀ k ∈ keys, h.contains k = true) (start : Nat) :
    Answered (positionIn cmp key start keys) := by
  induction keys generalizing start with
  | nil => exact ⟨_, rfl⟩
  | cons k keys ih =>
    obtain ⟨o, ho⟩ := hcmp k key (hkeys k List.mem_cons_self) hkey
    have hrest := ih (fun z hz => hkeys z (List.mem_cons_of_mem k hz)) (start + 1)
    unfold positionIn
    rw [ho]
    split
    · rename_i h; cases h
    · exact ⟨_, rfl⟩
    · exact hrest

theorem HashTable.key_mem_refs {t : HashTable} {k : Ref} (hk : k ∈ t.keys.toList) :
    k ∈ (Payload.hash t).refs :=
  List.mem_append_left _ hk

theorem entriesWithin_answered (hcmp : cmp.Settled h) {t : HashTable}
    (ht : ∀ x ∈ (Payload.hash t).refs, h.contains x = true) {entries : List (Ref × Ref)}
    (hentries : ∀ e ∈ entries, h.contains e.1 = true ∧ h.contains e.2 = true) :
    Answered (entriesWithin cmp t entries) := by
  induction entries with
  | nil => exact ⟨_, rfl⟩
  | cons e entries ih =>
    obtain ⟨k, v⟩ := e
    obtain ⟨hk, hv⟩ := hentries _ List.mem_cons_self
    have hrest := ih fun e he => hentries e (List.mem_cons_of_mem _ he)
    obtain ⟨found, hfound⟩ := positionIn_answered hcmp hk
      (fun x hx => ht x (HashTable.key_mem_refs hx)) 0
    unfold entriesWithin
    rw [hfound]
    cases found with
    | none => exact ⟨_, rfl⟩
    | some i =>
      dsimp only
      cases hentry : t.entries[i]? with
      | none => exact ⟨_, rfl⟩
      | some e =>
        obtain ⟨k', w⟩ := e
        have hw := ht w (HashTable.entry_mem_refs (Array.mem_of_getElem? hentry)).2
        obtain ⟨o, ho⟩ := hcmp v w hv hw
        dsimp only
        rw [ho]
        split
        · rename_i h; cases h
        · exact hrest
        · exact ⟨_, rfl⟩

theorem compareHashes_answered (hcmp : cmp.Settled h) {s t : HashTable}
    (hs : ∀ x ∈ (Payload.hash s).refs, h.contains x = true)
    (ht : ∀ x ∈ (Payload.hash t).refs, h.contains x = true) :
    Answered (compareHashes cmp s t) := by
  obtain ⟨b, hb⟩ : Answered (entriesWithin cmp t s.entries.toList) :=
    entriesWithin_answered hcmp ht fun e he =>
      have hmem := HashTable.entry_mem_refs (Array.mem_toList_iff.mp he)
      ⟨hs _ hmem.1, hs _ hmem.2⟩
  unfold compareHashes
  split
  · rw [hb]
    cases b <;> exact ⟨_, rfl⟩
  · exact ⟨_, rfl⟩

/-- A comparison of a class chain has an answer for live objects. -/
theorem CmpFn.run_answered (hcmp : cmp.Settled h) (hclosed : h.Closed) (f : CmpFn) {a b : Ref}
    (ha : h.contains a = true) (hb : h.contains b = true) : Answered (f.run h cmp a b) := by
  obtain ⟨p, hp⟩ := Heap.Sound.payload ha
  obtain ⟨q, hq⟩ := Heap.Sound.payload hb
  have hps : ∀ x ∈ p.refs, h.contains x = true := fun x hx => hclosed.refs_live hp hx
  have hqs : ∀ x ∈ q.refs, h.contains x = true := fun x hx => hclosed.refs_live hq hx
  cases f with
  | never => exact ⟨_, rfl⟩
  | aboveInts => exact .bind_ok hq (by cases q <;> exact ⟨_, rfl⟩)
  | unwrap =>
    refine .bind_ok hp ?_
    cases p with
    | object slots =>
      dsimp only
      cases hx : slots[0]? with
      | none => exact ⟨_, rfl⟩
      | some x => exact hcmp x b (hps x (Array.mem_toList_iff.mpr (Array.mem_of_getElem? hx))) hb
    | _ => exact ⟨_, rfl⟩
  | number =>
    refine .bind_ok hp ?_
    cases p.number? with
    | none => exact ⟨_, rfl⟩
    | some x => exact .bind_ok hq (by cases q.number? <;> exact ⟨_, rfl⟩)
  | array =>
    refine .bind_ok hp ?_
    cases p with
    | array xs =>
      refine .bind_ok hq ?_
      cases q with
      | array ys => exact compareItems_answered hcmp hps hqs
      | _ => exact ⟨_, rfl⟩
    | _ => exact ⟨_, rfl⟩
  | hash =>
    refine .bind_ok hp ?_
    cases p with
    | hash s =>
      refine .bind_ok hq ?_
      cases q with
      | hash t => exact compareHashes_answered hcmp hps hqs
      | _ => exact ⟨_, rfl⟩
    | _ => exact ⟨_, rfl⟩
  | _ =>
    refine .bind_ok hp ?_
    cases p <;> first | exact ⟨_, rfl⟩ | exact .bind_ok hq (by cases q <;> exact ⟨_, rfl⟩)

end Comparison

namespace Heap

variable {h : Heap} {a b : Ref}

theorem Sound.findSlot (hs : h.Sound) {α : Type} (pick : Slots → Option α) {c : Class} {r : Ref}
    (hc : h.cls r = .ok c) : Answered (h.findSlot pick r) := by
  obtain ⟨cs, hl⟩ := hs.lineage r c hc
  exact ⟨_, hl.findInChain⟩

theorem Sound.compareLeft (hs : h.Sound) {cmp : Comparison} (hcmp : cmp.Settled h)
    (ha : h.contains a = true) (hb : h.contains b = true) :
    Answered (h.compareLeft cmp a b) := by
  obtain ⟨o, ho⟩ := contains_iff.mp ha
  obtain ⟨c, hc⟩ := (hs.traces a o ho).cls
  refine .bind_ok (classOf_eq ho) ((hs.findSlot Slots.cmp hc).bind fun f _ => ?_)
  cases f with
  | none => exact ⟨_, rfl⟩
  | some f => exact f.run_answered hcmp hs.closed ha hb

/-- Every two objects can be compared, whatever they contain. -/
theorem Sound.compareWithin (hs : h.Sound) (levels : Nat) : (h.compareWithin levels).Settled h := by
  induction levels with
  | zero =>
    intro a b _ _
    unfold Heap.compareWithin
    split <;> exact ⟨_, rfl⟩
  | succ levels ih =>
    intro a b ha hb
    obtain ⟨left, hleft⟩ := hs.compareLeft ih ha hb
    obtain ⟨right, hright⟩ := hs.compareLeft ih hb ha
    unfold Heap.compareWithin
    split
    · exact ⟨_, rfl⟩
    · dsimp only
      rw [hleft]
      cases left with
      | some o => exact ⟨_, rfl⟩
      | none =>
        dsimp only
        rw [hright]
        exact ⟨_, rfl⟩

theorem Sound.compare (hs : h.Sound) : Comparison.Settled h.compare h :=
  hs.compareWithin _

end Heap

namespace Vm

variable {vm : Vm} {a b : Ref}

theorem className_recovers (hlive : vm.Live) (ha : vm.heap.contains a = true) :
    Recovers (className a vm) :=
  .of_answered (hlive.heap.className ha)

theorem compare_recovers (hlive : vm.Live) (ha : vm.heap.contains a = true)
    (hb : vm.heap.contains b = true) : Recovers (compare a b vm) := by
  obtain ⟨o, ho⟩ := hlive.heap.compare a b ha hb
  refine .asking ho ?_
  cases o with
  | some o => exact .return_ o
  | none =>
    exact (className_recovers hlive ha).reading fun left =>
      (className_recovers hlive hb).reading fun right => .raise _

theorem truthy_recovers (hclassed : vm.heap.Classed) (ha : vm.heap.contains a = true) :
    Recovers (truthy a vm) :=
  .of_answered (hclassed.truthy ha)

/-! ## Items -/

theorem runGetItem_recovers (hlive : vm.Live) (hclassed : vm.heap.Classed) (f : GetItemFn)
    (ha : vm.heap.contains a = true) (hb : vm.heap.contains b = true) :
    Recovers (runGetItem f a b vm) := by
  cases f with
  | key => exact .return_ b
  | str =>
    refine (intOf_recovers hlive hb).reading fun i =>
      (bytesOf_recovers hlive ha).reading fun x => ?_
    cases place? i x.size with
    | some n => exact Sure.recovers (newBytes _) vm
    | none => exact .raise _
  | array =>
    refine (intOf_recovers hlive hb).reading fun i =>
      (itemsOf_recovers hlive ha).reading fun items => ?_
    cases place? i items.size with
    | none => exact .raise _
    | some n =>
      dsimp only
      cases items[n]? with
      | some r => exact .return_ r
      | none => exact .raise _
  | hash =>
    obtain ⟨p, hp⟩ := Heap.Sound.payload ha
    unfold runGetItem tableOf
    rw [bind_assoc]
    refine .inspecting hp ?_
    cases p with
    | hash t =>
      have hclosed := hlive.heap.closed
      obtain ⟨found, hfound⟩ := positionIn_answered hlive.heap.compare hb
        (fun x hx => hclosed.refs_live hp (HashTable.key_mem_refs hx)) 0
      refine .asking hfound ?_
      cases found with
      | some i =>
        dsimp only
        cases t.entries[i]? with
        | some e => exact .return_ e.2
        | none => exact Sure.recovers nil vm
      | none =>
        exact (className_recovers hlive ha).reading fun c =>
          (Aborts.of_answered (hclassed.displayWithin hclosed _ hb)).reading fun k => .raise _
    | _ => exact mismatch_bind_recovers hlive "hash" ha _

/-- Indexing ends the system if no class of the chain has it. -/
theorem getItem_aborts (hlive : vm.Live) (hclassed : vm.heap.Classed) {o : Obj}
    (ho : vm.heap.get a = .ok o) (hb : vm.heap.contains b = true) :
    Aborts (getItem a b vm) (vm.heap.Lacks .getItem Slots.getItem o.cls) := by
  have ha : vm.heap.contains a = true := Heap.contains_iff.mpr ⟨o, ho⟩
  have hpick : Slots.Chained Slots.getItem := fun _ => rfl
  refine Aborts.congr (slot_aborts (P := fun _ => False) hpick hclassed (hclassed.objects a o ho)
    (by rw [Heap.classOf_eq ho]; rfl) (fun _ _ => id) ?_) fun s => or_iff_left id
  exact fun f _ => runGetItem_recovers hlive hclassed f ha hb

/-! ## Construction -/

/-- Construction ends the system if no class of the chain has a constructor, or as that of plain
instances does. -/
theorem construct_any_aborts (hlive : vm.Live) (hclassed : vm.heap.Classed) {cls : Ref} {c : Class}
    (hc : vm.heap.cls cls = .ok c) {args : List Ref}
    (hargs : ∀ r ∈ args, vm.heap.contains r = true) :
    Aborts (construct cls args vm) fun stop =>
      vm.heap.Lacks .init Slots.init cls stop ∨
        vm.heap.requireSlot .init Slots.init cls = .ok .object ∧
          if c.size * slotBytes > maxBytes then stop = .crashed
          else ∃ e, vm.heap.Unbindable cls "init" e ∧ stop = .fatal e := by
  obtain ⟨family, hfamily⟩ := hclassed.classes cls c hc
  refine slot_aborts (fun _ => rfl) hclassed hfamily rfl ?_ fun f hf => ?_
  · rintro hnone s ⟨hfound, -⟩
    rw [hfamily.of_requireSlot hclassed (fun _ => rfl) hfound] at hnone
    cases hnone
  · have hfound := hfamily.requireSlot hclassed (fun _ => rfl) .init hf
    have hrun := construct_aborts hlive hclassed hc hfound hargs
    rw [construct_run hfound] at hrun
    refine hrun.congr fun s => and_congr_left fun _ => ?_
    rw [hfound]
    exact ⟨fun h => h ▸ rfl, fun h => Except.ok.inj h⟩

/-! ## Integers -/

theorem binary_number (hclassed : vm.heap.Classed) (op : Arith) {i j : Int64}
    (ha : vm.heap.payload a = .ok (.int i)) (hb : vm.heap.payload b = .ok (.int j)) :
    binary op a b vm =
      ((op.onInts i j).elim (Action.raise .divisionByZero) newInt : Action Ref) vm := by
  obtain ⟨k, ho⟩ := Heap.payload_eq_ok_iff.mp ha
  have hfn : vm.heap.requireSlot (arithSlotName op) (arithSlot op) k = .ok (.number op) :=
    (hclassed.objects a _ ho).requireSlot hclassed (Slots.chained_arithSlot op) _
      (by cases op <;> rfl)
  have hx : numberOf a vm = .ok (.int i) vm := bind_ok (payload_eq_ok.mpr ⟨ha, rfl⟩)
  have hy : numberOf b vm = .ok (.int j) vm := bind_ok (payload_eq_ok.mpr ⟨hb, rfl⟩)
  unfold binary runBinary arith
  rw [bind_ok (require_ok ho hfn)]
  dsimp only
  rw [bind_ok hx, bind_ok hy]
  dsimp only
  cases op.onInts i j <;> rfl

/-- Arithmetic on integers is exact modulo `2 ^ 64`, and only a division by zero fails. -/
theorem binary_ints (hclassed : vm.heap.Classed) (op : Arith) {i j : Int64}
    (ha : vm.heap.payload a = .ok (.int i)) (hb : vm.heap.payload b = .ok (.int j)) :
    (op = .div ∧ j = 0 → binary op a b vm = .error (.raised .divisionByZero) vm) ∧
      (¬ (op = .div ∧ j = 0) → ∃ r v vm', binary op a b vm = .ok r vm' ∧
        vm'.heap.payload r = .ok (.int v) ∧
        v.toInt = (op.exact i.toInt j.toInt).bmod (2 ^ 64)) := by
  rw [binary_number hclassed op ha hb, ← Arith.onInts_eq_none]
  constructor
  · intro hnone
    rw [hnone]
    rfl
  · intro hsome
    obtain ⟨v, hv⟩ := Option.ne_none_iff_exists'.mp hsome
    rw [hv]
    exact ⟨_, v, _, new_eq vm .int (.int v), Heap.payload_place_self hclassed.freeList _,
      Arith.onInts_exact hv⟩

end Vm

/-! ## Runs -/

namespace Session

/-- In every run in which the embedding program makes no object by hand, the operations on live
objects end the system exactly so: operators, indexing and construction where no class of the chain
has them; repeated strings and plain instances where memory has no room; attributes and `init`
where an entry cannot be bound or read. Comparison and truth never do. Arithmetic on integers is
exact modulo `2 ^ 64`, and only a division by zero fails. -/
theorem operations_abort {registry : Registry} {config : Config} {heap : Nat} {task : TaskId}
    {s : Session}
    (hs : (boot registry config heap task).ReachesBy (fun _ _ => False) (fun _ _ _ => True) s) :
    (∀ a o, s.vm.heap.get a = .ok o →
      (∀ op b q, s.vm.heap.payload b = .ok q →
        Aborts (Vm.binary op a b s.vm) fun stop =>
          s.vm.heap.Lacks (Vm.arithSlotName op) (Vm.arithSlot op) o.cls stop ∨
            op = .mul ∧ o.payload.overlong q ∧ stop = .crashed) ∧
      (∀ b, s.vm.heap.contains b = true → Recovers (Vm.compare a b s.vm) ∧
        Aborts (Vm.getItem a b s.vm) (s.vm.heap.Lacks .getItem Slots.getItem o.cls)) ∧
      Recovers (Vm.truthy a s.vm) ∧
      ∀ name, Aborts (Vm.getAttr a name s.vm) (o.Refuses s.vm.heap a name)) ∧
    (∀ cls c args, s.vm.heap.cls cls = .ok c → (∀ r ∈ args, s.vm.heap.contains r = true) →
      Aborts (Vm.construct cls args s.vm) fun stop =>
        s.vm.heap.Lacks .init Slots.init cls stop ∨
          s.vm.heap.requireSlot .init Slots.init cls = .ok .object ∧
            if c.size * Vm.slotBytes > maxBytes then stop = .crashed
            else ∃ e, s.vm.heap.Unbindable cls "init" e ∧ stop = .fatal e) ∧
    ∀ op a b i j, s.vm.heap.payload a = .ok (.int i) → s.vm.heap.payload b = .ok (.int j) →
      (op = .div ∧ j = 0 → Vm.binary op a b s.vm = .error (.raised .divisionByZero) s.vm) ∧
        (¬ (op = .div ∧ j = 0) → ∃ r v vm, Vm.binary op a b s.vm = .ok r vm ∧
          vm.heap.payload r = .ok (.int v) ∧
          v.toInt = (op.exact i.toInt j.toInt).bmod (2 ^ 64)) := by
  obtain ⟨horderly, hclassed⟩ := classed hs
  have hlive := horderly.live.vm_live
  refine ⟨fun a o ho => ⟨?_, ?_, ?_, ?_⟩, ?_, ?_⟩
  · exact fun op b q hq => Vm.binary_aborts hlive hclassed op ho hq
  · have ha : s.vm.heap.contains a = true := Heap.contains_iff.mpr ⟨o, ho⟩
    exact fun b hb => ⟨Vm.compare_recovers hlive ha hb, Vm.getItem_aborts hlive hclassed ho hb⟩
  · exact Vm.truthy_recovers hclassed (Heap.contains_iff.mpr ⟨o, ho⟩)
  · exact fun name => Vm.getAttr_aborts hlive hclassed ho name
  · exact fun cls c args hc hargs => Vm.construct_any_aborts hlive hclassed hc hargs
  · exact fun op a b i j ha hb => Vm.binary_ints hclassed op ha hb

/-- A string of two bytes and the greatest integer. -/
def repeatOften : List Deed :=
  [.operate (.bytes "ab".toUTF8) [], .operate (.int 9223372036854775807) []]

/-- The string, repeated that often, has no room. -/
theorem operations_abort_repeat :
    ∃ s vm, (boot {} {} 0 ⟨0, 0⟩).ReachesBy (fun _ _ => False) (fun _ _ _ => True) s ∧
      Vm.binary .mul ⟨0, 43, 0⟩ ⟨0, 44, 0⟩ s.vm = .error .crashed vm := by
  have hrun : (follow? repeatOften (boot {} {} 0 ⟨0, 0⟩)).any (fun s =>
      okAnd (s.vm.heap.get ⟨0, 43, 0⟩) fun o =>
        okAnd (s.vm.heap.payload ⟨0, 44, 0⟩) (o.payload.overlong ·)) = true := by decide +kernel
  obtain ⟨s, hs, hrun⟩ := (Option.any_eq_true _ _).mp hrun
  simp only [okAnd_eq_true] at hrun
  obtain ⟨o, ho, q, hq, hlong⟩ := hrun
  have hreach : (boot {} {} 0 ⟨0, 0⟩).ReachesBy (fun _ _ => False) (fun _ _ _ => True) s :=
    follow?_reaches (fun _ _ _ _ => trivial) hs
  obtain ⟨hobjects, -⟩ := operations_abort hreach
  obtain ⟨hbinary, -⟩ := hobjects _ o ho
  obtain ⟨vm, hend⟩ := (hbinary .mul _ q hq).ends .crashed (.inr ⟨rfl, hlong, rfl⟩)
  exact ⟨s, vm, hreach, hend⟩

end Session
end ObjectMachine
