import ObjectMachine.Heap.Collect
import ObjectMachine.Heap.Compare
import ObjectMachine.Heap.Display
import ObjectMachine.Vm.Copy

/-!
# ObjectMachine.Proofs.Heap.Plain

No question to the heap fails over the operand stack: whatever the heap is like, and dangling
references included, the failure is never `Fatal.operandRange`.

* `Plain` — a question of that kind. The instances follow the definitions, so that instance search
  puts them together.
-/

namespace ObjectMachine

/-- A question to the heap whose failure is not about the operand stack. -/
class Plain {α : Type} (x : Except Fatal α) : Prop where
  ne_range : ∀ n height, x ≠ .error (.operandRange n height)

namespace Plain

variable {α β γ : Type}

instance ok (a : α) : Plain (.ok a) := ⟨nofun⟩

instance return_ (a : α) : Plain (pure a) := ⟨nofun⟩

instance bind (x : Except Fatal α) (f : α → Except Fatal β) [hx : Plain x]
    [hf : ∀ a, Plain (f a)] : Plain (x >>= f) := by
  constructor
  intro n height
  cases x with
  | ok a => exact (hf a).ne_range n height
  | error e => exact fun h => hx.ne_range n height (congrArg _ (Except.error.inj h))

theorem error_of {x : Except Fatal α} {e : Fatal} [hx : Plain x] (h : x = .error e) :
    Plain (.error e : Except Fatal β) :=
  ⟨fun n height he => hx.ne_range n height (h.trans (congrArg _ (Except.error.inj he)))⟩

instance wrongKind (r : Ref) (kind required : String) :
    Plain (throw (.wrongKind r kind required) : Except Fatal α) :=
  ⟨fun _ _ h => by cases h⟩

instance mapM (f : γ → Except Fatal β) [∀ a, Plain (f a)] (items : List γ) :
    Plain (items.mapM f) := by
  induction items with
  | nil => rw [List.mapM_nil]; infer_instance
  | cons a rest ih => rw [List.mapM_cons]; infer_instance

/-! ## Objects and class chains -/

instance get (h : Heap) (r : Ref) : Plain (h.get r) := by
  unfold Heap.get
  split
  · split
    · infer_instance
    · exact ⟨nofun⟩
  · exact ⟨nofun⟩

instance payload (h : Heap) (r : Ref) : Plain (h.payload r) := by
  unfold Heap.payload
  split
  · infer_instance
  · exact error_of ‹_›

instance classOf (h : Heap) (r : Ref) : Plain (h.classOf r) := by
  unfold Heap.classOf
  split
  · infer_instance
  · exact error_of ‹_›

instance cls (h : Heap) (r : Ref) : Plain (h.cls r) := by
  unfold Heap.cls
  split
  · infer_instance
  · exact ⟨nofun⟩
  · exact error_of ‹_›

instance className (h : Heap) (r : Ref) : Plain (h.className r) := by
  unfold Heap.className; infer_instance

instance findFrom (h : Heap) (pick : Class → Option α) (fuel : Nat) (r : Ref) :
    Plain (h.findFrom pick fuel r) := by
  induction fuel generalizing r with
  | zero => exact ok none
  | succ fuel ih =>
    unfold Heap.findFrom
    split
    · exact error_of ‹_›
    · split
      · infer_instance
      · split
        · exact ih _
        · infer_instance

instance findSlot (h : Heap) (pick : Slots → Option α) (r : Ref) : Plain (h.findSlot pick r) :=
  findFrom h _ _ r

instance lookupMethod (h : Heap) (r : Ref) (name : String) : Plain (h.lookupMethod r name) :=
  findFrom h _ _ r

instance requireSlot (h : Heap) (slot : Slot) (pick : Slots → Option α) (r : Ref) :
    Plain (h.requireSlot slot pick r) := by
  unfold Heap.requireSlot
  refine @bind _ _ _ _ _ fun found => ?_
  split
  · infer_instance
  · exact @bind _ _ _ _ _ fun _ => ⟨nofun⟩

instance truthy (h : Heap) (r : Ref) : Plain (h.truthy r) := by
  unfold Heap.truthy; infer_instance

/-! ## Collection -/

instance markFnsFrom (h : Heap) (fuel : Nat) (r : Ref) : Plain (h.markFnsFrom fuel r) := by
  induction fuel generalizing r with
  | zero => exact ok []
  | succ fuel ih =>
    unfold Heap.markFnsFrom
    split
    · exact error_of ‹_›
    · split
      · infer_instance
      · split
        · infer_instance
        · exact error_of ‹_›

instance edges (h : Heap) (o : Obj) : Plain (h.edges o) := by
  unfold Heap.edges
  split
  · infer_instance
  · exact error_of ‹_›

instance nextUnmarked (h : Heap) (marks : Marks) (gray : List Ref) :
    Plain (h.nextUnmarked marks gray) := by
  induction gray with
  | nil => exact ok none
  | cons r rest ih =>
    unfold Heap.nextUnmarked
    split
    · exact error_of ‹_›
    · split <;> infer_instance

instance markFrom (h : Heap) (rounds : Nat) (marks : Marks) (gray : List Ref) :
    Plain (h.markFrom rounds marks gray) := by
  fun_induction Heap.markFrom h rounds marks gray <;>
    first | infer_instance | assumption | exact error_of ‹_›

instance collect (h : Heap) (extra : List Ref) : Plain (h.collect extra) := by
  unfold Heap.collect Heap.marks
  split
  · infer_instance
  · exact error_of ‹_›

/-! ## Comparison -/

section Compare

variable {cmp : Comparison} [∀ a b, Plain (cmp a b)]

instance compareItems (as bs : List Ref) : Plain (compareItems cmp as bs) := by
  fun_induction ObjectMachine.compareItems cmp as bs with
  | case1 | case2 | case3 => infer_instance
  | case4 a as b bs _ ih => exact ih
  | case5 => infer_instance

instance positionIn (key : Ref) (start : Nat) (keys : List Ref) :
    Plain (positionIn cmp key start keys) := by
  fun_induction ObjectMachine.positionIn cmp key start keys with
  | case1 | case3 => infer_instance
  | case2 _ _ _ e he => exact error_of he
  | case4 _ _ _ _ _ _ ih => exact ih

instance entriesWithin (t : HashTable) (entries : List (Ref × Ref)) :
    Plain (entriesWithin cmp t entries) := by
  fun_induction ObjectMachine.entriesWithin cmp t entries <;>
    first | infer_instance | assumption | exact error_of ‹_›

instance compareHashes (s t : HashTable) : Plain (compareHashes cmp s t) := by
  unfold ObjectMachine.compareHashes
  split
  · split
    · exact error_of ‹_›
    · infer_instance
    · infer_instance
  · infer_instance

instance cmpFn (f : CmpFn) (h : Heap) (a b : Ref) : Plain (f.run h cmp a b) := by
  unfold CmpFn.run
  repeat' first | infer_instance | refine @bind _ _ _ _ _ fun _ => ?_ | split

instance compareLeft (h : Heap) (a b : Ref) : Plain (h.compareLeft cmp a b) := by
  unfold Heap.compareLeft
  refine @bind _ _ _ _ _ fun _ => @bind _ _ _ _ _ fun _ => ?_
  split <;> infer_instance

end Compare

instance compareWithin (h : Heap) (levels : Nat) (a b : Ref) :
    Plain (h.compareWithin levels a b) := by
  induction levels generalizing a b with
  | zero =>
    rw [Heap.compareWithin]
    split <;> infer_instance
  | succ levels ih =>
    rw [Heap.compareWithin]
    split
    · infer_instance
    · show Plain (match h.compareLeft (h.compareWithin levels) a b with
        | .error e => .error e
        | .ok (some o) => .ok (some o)
        | .ok none =>
          match h.compareLeft (h.compareWithin levels) b a with
          | .error e => .error e
          | .ok o => .ok (o.map Ordering.swap))
      split
      · exact error_of ‹_›
      · infer_instance
      · split
        · exact error_of ‹_›
        · infer_instance

instance compare (h : Heap) (a b : Ref) : Plain (h.compare a b) :=
  compareWithin h _ a b

instance equals (h : Heap) (a b : Ref) : Plain (h.equals a b) := by
  unfold Heap.equals
  split
  · infer_instance
  · exact error_of ‹_›

instance position? (h : Heap) (t : HashTable) (key : Ref) : Plain (h.position? t key) :=
  positionIn key 0 _

/-! ## Display -/

section Display

variable {print : Printer} [∀ r, Plain (print r)]

instance displayEntry (entry : Ref × Ref) : Plain (displayEntry print entry) := by
  unfold ObjectMachine.displayEntry; infer_instance

instance strFn (f : StrFn) (h : Heap) (r : Ref) (o : Obj) : Plain (f.run h print r o) := by
  unfold StrFn.run displayItems displayEntries
  split <;> first
    | infer_instance
    | (refine @bind _ _ _ _ _ fun _ => ?_; split <;> infer_instance)
    | (split <;> infer_instance)

end Display

instance displayWithin (h : Heap) (levels : Nat) (r : Ref) : Plain (h.displayWithin levels r) := by
  induction levels generalizing r with
  | zero => exact ok "..."
  | succ levels ih =>
    unfold Heap.displayWithin
    refine @bind _ _ _ _ _ fun _ => @bind _ _ _ _ _ fun _ => ?_
    split
    · infer_instance
    · exact ⟨nofun⟩

instance display (h : Heap) (r : Ref) : Plain (h.display r) :=
  displayWithin h _ r

end Plain

/-! ## Packing -/

/-- The same of packing, which can also be refused. -/
class PlainCopy {α : Type} (x : Except Stop α) : Prop where
  ne_range : ∀ n height, x ≠ .error (.fatal (.operandRange n height))

namespace PlainCopy

variable {α β : Type}

instance ok (a : α) : PlainCopy (.ok a) := ⟨nofun⟩

instance return_ (a : α) : PlainCopy (pure a) := ⟨nofun⟩

instance refused (e : Error) : PlainCopy (.error (.raised e) : Except Stop α) := ⟨nofun⟩

instance unsendable (e : Error) : PlainCopy (throw (.raised e) : Except Stop α) :=
  ⟨fun _ _ h => by cases h⟩

instance wrongKind (r : Ref) (kind required : String) :
    PlainCopy (throw (.fatal (.wrongKind r kind required)) : Except Stop α) :=
  ⟨fun _ _ h => by cases h⟩

instance bind (x : Except Stop α) (f : α → Except Stop β) [hx : PlainCopy x]
    [hf : ∀ a, PlainCopy (f a)] : PlainCopy (x >>= f) := by
  constructor
  intro n height
  cases x with
  | ok a => exact (hf a).ne_range n height
  | error e => exact fun h => hx.ne_range n height (congrArg _ (Except.error.inj h))

instance asking (x : Except Fatal α) [hx : Plain x] : PlainCopy (Heap.asking x) := by
  constructor
  intro n height
  cases x with
  | ok a => nofun
  | error e =>
    intro h
    exact hx.ne_range n height (congrArg _ (Stop.fatal.inj (Except.error.inj h)))

section Pack

variable {h : Heap} {pack : Heap.Packer} [∀ r, PlainCopy (pack r)]

instance packItems (items : List Ref) : PlainCopy (Heap.packItems pack items) := by
  induction items with
  | nil => exact ok []
  | cons r rest ih => unfold Heap.packItems; infer_instance

instance packEntries (entries : List (Ref × Ref)) : PlainCopy (Heap.packEntries pack entries) := by
  induction entries with
  | nil => exact ok []
  | cons e rest ih => unfold Heap.packEntries; infer_instance

instance packOption (value : Option Ref) : PlainCopy (Heap.packOption pack value) := by
  cases value with
  | none => exact ok none
  | some r => unfold Heap.packOption; infer_instance

instance packBindings (bindings : List (String × Ref)) :
    PlainCopy (h.packBindings pack bindings) := by
  induction bindings with
  | nil => exact ok []
  | cons e rest ih =>
    unfold Heap.packBindings
    refine @bind _ _ _ _ _ fun p => ?_
    cases p <;> infer_instance

instance unitOf (code : Ref) : PlainCopy (h.unitOf code) := by
  unfold Heap.unitOf
  refine @bind _ _ _ _ _ fun p => ?_
  cases p <;> infer_instance

instance moduleNameOf (module : Option Ref) : PlainCopy (h.moduleNameOf module) := by
  cases module with
  | none => exact ok none
  | some m =>
    unfold Heap.moduleNameOf
    refine @bind _ _ _ _ _ fun p => ?_
    cases p <;> infer_instance

instance packBody (body : Body) : PlainCopy (h.packBody pack body) := by
  cases body <;> unfold Heap.packBody <;> infer_instance

end Pack

instance packWithin (h : Heap) (levels : Nat) (r : Ref) : PlainCopy (h.packWithin levels r) := by
  induction levels generalizing r with
  | zero => exact refused _
  | succ levels ih =>
    unfold Heap.packWithin
    refine @bind _ _ _ _ _ fun p => ?_
    cases p <;> infer_instance

instance pack (h : Heap) (r : Ref) : PlainCopy (h.pack r) :=
  packWithin h _ r

end PlainCopy
end ObjectMachine
