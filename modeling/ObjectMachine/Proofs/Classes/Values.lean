import ObjectMachine.Proofs.Classes.Sessions

/-!
# ObjectMachine.Proofs.Classes.Values

Every value can be displayed and tested for truth.

The display function of an object is looked for in its own class only, and a made class has the one
of its super class at the time it was made; a class without super class has none. What tests and
traces an object is found along the chain. Both are right for an object because it is of the kind of
its class.

* `StrFn.Handles`, `NonzeroFn.Handles`, `MarkFn.Handles` — what the functions are written for.
* `Obj.Presentable` — an object whose class has and finds functions that are written for it.
* `Heap.Displayable` — every class has a display function that can write its instances.
* `Heap.Displayable.displayWithin`, `Heap.Classed.truthy` — both succeed for every object.
* `Session.values_presentable` — so it is in every run in which the embedding program makes no
  object by hand.
-/

namespace ObjectMachine

/-! ## What functions are written for -/

/-- The kind of objects that a display function is written for; the hook is written for all. -/
def StrFn.family? : StrFn → Option Builtin
  | .object => some .object
  | .cls => some .cls
  | .nil => some .nil
  | .bool => some .bool
  | .int => some .int
  | .float => some .float
  | .str => some .str
  | .array => some .array
  | .hash => some .hash
  | .method => some .method
  | .code => some .code
  | .frame => some .frame
  | .module => some .module
  | .task => some .task
  | .var => some .var
  | .error => some .error
  | .fixed _ => none

/-- The kind of objects that a truth function is written for. -/
def NonzeroFn.family? : NonzeroFn → Option Builtin
  | .always _ => none
  | .bool => some .bool
  | .int => some .int
  | .float => some .float
  | .str => some .str
  | .array => some .array
  | .hash => some .hash

def StrFn.Handles (f : StrFn) (p : Payload) : Prop :=
  ∀ b, f.family? = some b → p.family = b

/-- What a display function can write: most leave out what they cannot know, but two need an object
of their own kind. -/
def StrFn.Suits : StrFn → Payload → Prop
  | .cls, p => p.family = .cls
  | .var, p => p.family = .var
  | _, _ => True

theorem StrFn.Handles.suits {f : StrFn} {p : Payload} (hf : f.Handles p) : f.Suits p := by
  cases f with
  | cls => exact hf _ rfl
  | var => exact hf _ rfl
  | _ => trivial

def NonzeroFn.Handles (f : NonzeroFn) (p : Payload) : Prop :=
  ∀ b, f.family? = some b → p.family = b

/-- A tracing function traces everything that the payload holds. -/
def MarkFn.Handles (f : MarkFn) (p : Payload) : Prop :=
  f.targets p = p.refs

/-- The class of an object has a display function that is written for the object, and finds
functions that test, trace and search it. -/
structure Obj.Presentable (h : Heap) (o : Obj) : Prop where
  str : ∃ c f, h.cls o.cls = .ok c ∧ c.slots.str = some f ∧ f.Handles o.payload
  nonzero : ∃ f, h.findSlot Slots.nonzero o.cls = .ok (some f) ∧ f.Handles o.payload
  mark : ∃ f, h.findSlot Slots.mark o.cls = .ok (some f) ∧ f.Handles o.payload
  getAttr : ∃ f, h.findSlot Slots.getAttr o.cls = .ok (some f)

namespace Payload

/-- The built-in class of each kind has a display function for it. -/
theorem family_str (p : Payload) : ∃ f, p.family.slots.str = some f ∧ f.Handles p := by
  cases p <;> exact ⟨_, rfl, by rintro b ⟨⟩; rfl⟩

theorem family_nonzero (p : Payload) :
    ∃ f, Builtin.inherited Slots.nonzero (some p.family) = some f ∧ f.Handles p := by
  cases p <;> refine ⟨_, rfl, ?_⟩ <;> rintro b ⟨⟩ <;> rfl

theorem family_mark (p : Payload) :
    ∃ f, Builtin.inherited Slots.mark (some p.family) = some f ∧ f.Handles p := by
  cases p <;> exact ⟨_, rfl, rfl⟩

theorem family_getAttr (p : Payload) :
    ∃ f, Builtin.inherited Slots.getAttr (some p.family) = some f := by
  cases p <;> exact ⟨_, rfl⟩

end Payload

theorem Heap.Classed.presentable {h : Heap} (hh : h.Classed) {r : Ref} {o : Obj}
    (ho : h.get r = .ok o) : o.Presentable h := by
  have hf := hh.objects r o ho
  refine ⟨?_, ?_, ?_, ?_⟩
  · obtain ⟨c, hc, hown⟩ := hf.own hh
    obtain ⟨f, hstr, hhandles⟩ := o.payload.family_str
    exact ⟨c, f, hc, hown.trans hstr, hhandles⟩
  · obtain ⟨f, hin, hhandles⟩ := o.payload.family_nonzero
    exact ⟨f, (hf.findSlot hh fun _ => rfl).trans (congrArg _ hin), hhandles⟩
  · obtain ⟨f, hin, hhandles⟩ := o.payload.family_mark
    exact ⟨f, (hf.findSlot hh fun _ => rfl).trans (congrArg _ hin), hhandles⟩
  · obtain ⟨f, hin⟩ := o.payload.family_getAttr
    exact ⟨f, (hf.findSlot hh fun _ => rfl).trans (congrArg _ hin)⟩

/-! ## Display -/

/-- A question that has an answer. -/
def Answered {α : Type} (x : Except Fatal α) : Prop :=
  ∃ a, x = .ok a

namespace Answered

variable {α β : Type}

theorem return_ (a : α) : Answered (pure a) := ⟨a, rfl⟩

theorem bind {x : Except Fatal α} {f : α → Except Fatal β} (hx : Answered x)
    (hf : ∀ a, x = .ok a → Answered (f a)) : Answered (x >>= f) := by
  obtain ⟨a, rfl⟩ := hx
  exact hf a rfl

theorem bind_ok {x : Except Fatal α} {f : α → Except Fatal β} {a : α} (hx : x = .ok a)
    (hf : Answered (f a)) : Answered (x >>= f) := by
  subst hx
  exact hf

theorem mapM {f : α → Except Fatal β} {items : List α} (hf : ∀ a ∈ items, Answered (f a)) :
    Answered (items.mapM f) := by
  induction items with
  | nil => exact return_ []
  | cons a rest ih =>
    rw [List.mapM_cons]
    refine (hf a List.mem_cons_self).bind fun b _ => ?_
    exact (ih fun x hx => hf x (List.mem_cons_of_mem a hx)).bind fun bs _ => return_ _

end Answered

section Display

variable {print : Printer}

theorem displayItems_answered {items : List Ref} (hprint : ∀ x ∈ items, Answered (print x)) :
    Answered (displayItems print items) :=
  (Answered.mapM hprint).bind fun _ _ => .return_ _

theorem displayEntries_answered {entries : List (Ref × Ref)}
    (hprint : ∀ e ∈ entries, Answered (print e.1) ∧ Answered (print e.2)) :
    Answered (displayEntries print entries) := by
  refine (Answered.mapM fun e he => ?_).bind fun _ _ => .return_ _
  exact (hprint e he).1.bind fun _ _ => (hprint e he).2.bind fun _ _ => .return_ _

theorem HashTable.entry_mem_refs {t : HashTable} {e : Ref × Ref} (he : e ∈ t.entries) :
    e.1 ∈ (Payload.hash t).refs ∧ e.2 ∈ (Payload.hash t).refs :=
  ⟨List.mem_append_left _ (Array.mem_toList_iff.mpr (Array.mem_map_of_mem he)),
    List.mem_append_right _ (Array.mem_toList_iff.mpr (Array.mem_map_of_mem he))⟩

/-- A display function has a text for an object that it can write, if there are texts for what the
object holds. -/
theorem StrFn.run_answered {f : StrFn} {h : Heap} {r : Ref} {o : Obj} (hf : f.Suits o.payload)
    (ho : h.get r = .ok o) (hcls : Answered (h.cls o.cls))
    (hlive : ∀ x ∈ o.payload.refs, Answered (h.payload x))
    (hprint : ∀ x ∈ o.payload.refs, Answered (print x)) : Answered (f.run h print r o) := by
  obtain ⟨k, p⟩ := o
  unfold run
  split
  case h_2 => exact hcls.bind fun _ _ => .return_ _
  case h_3 =>
    obtain ⟨c, rfl⟩ := Payload.family_eq_cls hf
    exact Answered.bind ⟨c, Heap.cls_eq_ok.mpr ⟨k, ho⟩⟩ fun _ _ => .return_ _
  case h_10 items hp =>
    obtain rfl : p = .array items := hp
    exact (displayItems_answered hprint).bind fun _ _ => .return_ _
  case h_12 t hp =>
    obtain rfl : p = .hash t := hp
    refine (displayEntries_answered fun e he => ?_).bind fun _ _ => .return_ _
    obtain ⟨hkey, hvalue⟩ := HashTable.entry_mem_refs (Array.mem_toList_iff.mp he)
    exact ⟨hprint _ hkey, hprint _ hvalue⟩
  case h_18 fr hp =>
    obtain rfl : p = .frame fr := hp
    refine (hlive fr.method List.mem_cons_self).bind fun q _ => ?_
    cases q <;> exact .return_ _
  case h_24 v hp =>
    obtain rfl : p = .var (some v) := hp
    exact (hprint v List.mem_cons_self).bind fun _ _ => .return_ _
  case h_25 hnone hsome =>
    cases p with
    | var value => cases value <;> first | exact (hnone rfl).elim | exact (hsome _ rfl).elim
    | _ => cases hf
  case h_26 e hp =>
    obtain rfl : p = .error e := hp
    split
    · exact .return_ _
    · rename_i c hcause
      refine (hprint c ?_).bind fun _ _ => .return_ _
      simp [Payload.refs, Payload.markFn?, MarkFn.targets, hcause]
  all_goals exact .return_ _

end Display

namespace Heap

variable {h : Heap} {r : Ref}

/-- Nothing dangles, and the class of every object has a display function that can write it. -/
structure Displayable (h : Heap) : Prop where
  closed : h.Closed
  str : ∀ r o, h.get r = .ok o →
    ∃ c f, h.cls o.cls = .ok c ∧ c.slots.str = some f ∧ f.Suits o.payload

theorem Classed.displayable (hh : h.Classed) (hclosed : h.Closed) : h.Displayable := by
  refine ⟨hclosed, fun r o ho => ?_⟩
  obtain ⟨c, f, hc, hstr, hhandles⟩ := (hh.presentable ho).str
  exact ⟨c, f, hc, hstr, hhandles.suits⟩

/-- Every object has a text, however deep it is written out. -/
theorem Displayable.displayWithin (hh : h.Displayable) (levels : Nat)
    (hr : h.contains r = true) : Answered (h.displayWithin levels r) := by
  induction levels generalizing r with
  | zero => exact ⟨_, rfl⟩
  | succ levels ih =>
    obtain ⟨o, ho⟩ := contains_iff.mp hr
    obtain ⟨c, f, hc, hstr, hsuits⟩ := hh.str r o ho
    have hlive := (hh.closed r o ho).2
    have hpayload : ∀ x ∈ o.payload.refs, Answered (h.payload x) := fun x hx => by
      obtain ⟨ox, hox⟩ := contains_iff.mp (hlive x hx)
      exact ⟨ox.payload, payload_eq_ok_iff.mpr ⟨ox.cls, hox⟩⟩
    refine .bind_ok ho (.bind_ok hc ?_)
    rw [hstr]
    exact StrFn.run_answered hsuits ho ⟨c, hc⟩ hpayload fun x hx => ih (hlive x hx)

theorem Classed.displayWithin (hh : h.Classed) (hclosed : h.Closed) (levels : Nat)
    (hr : h.contains r = true) : Answered (h.displayWithin levels r) :=
  (hh.displayable hclosed).displayWithin levels hr

theorem Classed.truthy (hh : h.Classed) (hr : h.contains r = true) : Answered (h.truthy r) := by
  obtain ⟨o, ho⟩ := contains_iff.mp hr
  obtain ⟨f, hf, -⟩ := (hh.presentable ho).nonzero
  exact .bind_ok ho (.bind (.bind_ok hf (.return_ f)) fun _ _ => .return_ _)

end Heap

/-! ## Runs -/

namespace Session

/-- In every run in which the embedding program makes no object by hand, every object has a class
that presents it, and so it has a text and a truth value. -/
theorem values_presentable {registry : Registry} {config : Config} {heap : Nat} {task : TaskId}
    {s : Session}
    (hs : (boot registry config heap task).ReachesBy (fun _ _ => False) (fun _ _ _ => True) s) :
    (∀ r o, s.vm.heap.get r = .ok o → o.Presentable s.vm.heap) ∧
      ∀ r, s.vm.heap.contains r = true → (∀ levels, Answered (s.vm.heap.displayWithin levels r)) ∧
        Answered (s.vm.heap.display r) ∧ Answered (s.vm.heap.truthy r) := by
  obtain ⟨horderly, hclassed⟩ := classed hs
  have hclosed := horderly.live.vm_live.heap.closed
  refine ⟨fun r o ho => hclassed.presentable ho, fun r hr => ⟨fun levels => ?_, ?_, ?_⟩⟩
  · exact hclassed.displayWithin hclosed levels hr
  · exact hclassed.displayWithin hclosed _ hr
  · exact hclassed.truthy hr

/-- Two classes without `Object` above them, and an instance of a class below `Int`. -/
def rootsAndCount : List Deed :=
  [.operate (.classNew "Root" 0) [], .operate (.classNew "Leaf" 2) [⟨0, 43, 0⟩],
    .operate (.classNew "Count" 0) [Builtin.int.ref 0], .call (.instantiate ⟨0, 45, 0⟩ []),
    .step, .step]

/-- The class `Leaf` with its super class `Root`, and the instance. -/
theorem values_presentable_count :
    ∃ s, (boot {} {} 0 ⟨0, 0⟩).ReachesBy (fun _ _ => False) (fun _ _ _ => True) s ∧
      (∃ c, s.vm.heap.cls ⟨0, 44, 0⟩ = .ok c ∧ c.super = some ⟨0, 43, 0⟩) ∧
      (∃ c, s.vm.heap.cls ⟨0, 43, 0⟩ = .ok c ∧ c.super = none) ∧
      ∃ o, s.vm.heap.get ⟨0, 46, 0⟩ = .ok o ∧ o.cls = ⟨0, 45, 0⟩ ∧ o.Presentable s.vm.heap ∧
        Answered (s.vm.heap.display ⟨0, 46, 0⟩) ∧ Answered (s.vm.heap.truthy ⟨0, 46, 0⟩) ∧
        Answered (s.vm.heap.display ⟨0, 44, 0⟩) ∧ Answered (s.vm.heap.truthy ⟨0, 43, 0⟩) := by
  have hrun : (follow? rootsAndCount (boot {} {} 0 ⟨0, 0⟩)).any (fun s =>
      okAnd (s.vm.heap.cls ⟨0, 44, 0⟩) (·.super == some ⟨0, 43, 0⟩) &&
      okAnd (s.vm.heap.cls ⟨0, 43, 0⟩) (·.super == none) &&
      okAnd (s.vm.heap.get ⟨0, 46, 0⟩) (·.cls == ⟨0, 45, 0⟩)) = true := by decide +kernel
  obtain ⟨s, hs, hrun⟩ := (Option.any_eq_true _ _).mp hrun
  simp only [Bool.and_eq_true, okAnd_eq_true, beq_iff_eq] at hrun
  obtain ⟨⟨⟨leaf, hleaf, hsuper⟩, root, hroot, hnone⟩, o, ho, hcls⟩ := hrun
  have hreach : (boot {} {} 0 ⟨0, 0⟩).ReachesBy (fun _ _ => False) (fun _ _ _ => True) s :=
    follow?_reaches (fun _ _ _ _ => trivial) hs
  obtain ⟨hobjects, hvalues⟩ := values_presentable hreach
  obtain ⟨-, htext, htruth⟩ := hvalues _ (Heap.contains_iff.mpr ⟨o, ho⟩)
  refine ⟨s, hreach, ⟨leaf, hleaf, hsuper⟩, ⟨root, hroot, hnone⟩, o, ho, hcls, hobjects _ o ho,
    htext, htruth, ?_, ?_⟩
  · exact (hvalues _ (Heap.cls_contains hleaf)).2.1
  · exact (hvalues _ (Heap.cls_contains hroot)).2.2

end Session
end ObjectMachine
