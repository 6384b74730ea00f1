import ObjectMachine.Proofs.Classes.Values
import ObjectMachine.Proofs.Comparing.Operators
import ObjectMachine.Proofs.Scopes.OneModule

/-!
# ObjectMachine.Proofs.Classes.Endings

How actions end.

An action ends with a value, with an error that a program can recover from, or it ends the system.

* `Aborts` — the action ends the system exactly under a condition.
* `Recovers` — the action never ends the system.
* `Sure.recovers` — what succeeds in every state never does. The instances follow the definitions.
* `Heap.Sound.className`, `Heap.Sound.lookupMethod` — what can be asked about live objects.
* `Vm.inspect_recovers` — questions about the payload: an object of another kind is reported.
* `Vm.classNewFrom_recovers` — the making of classes.
-/

namespace ObjectMachine

open ObjectMachine.Action

/-- The action ends the system exactly in the ways that `P` tells. -/
structure Aborts {α : Type} (out : EStateM.Result Stop Vm α) (P : Stop → Prop) : Prop where
  only : ∀ stop vm, out = .error stop vm → (∃ e, stop = .raised e) ∨ P stop
  ends : ∀ stop, P stop → ∃ vm, out = .error stop vm

/-- The action ends with a value or with an error that a program can recover from. -/
abbrev Recovers {α : Type} (out : EStateM.Result Stop Vm α) : Prop :=
  Aborts out fun _ => False

namespace Aborts

variable {α β : Type} {a : Action α} {f : α → Action β} {vm vm' : Vm} {P Q : Stop → Prop}

theorem ok (x : α) (vm : Vm) : Recovers (.ok x vm) :=
  ⟨by rintro _ _ ⟨⟩, fun _ => False.elim⟩

theorem return_ (x : α) : Recovers ((pure x : Action α) vm) :=
  ok x vm

theorem raise (e : Error) : Recovers ((Action.raise e : Action α) vm) :=
  ⟨by rintro _ _ ⟨⟩; exact .inl ⟨e, rfl⟩, fun _ => False.elim⟩

/-- An action that ends the system. -/
theorem of_error {out : EStateM.Result Stop Vm α} {stop : Stop} (hout : out = .error stop vm)
    (hP : ∀ s, P s ↔ s = stop) : Aborts out P := by
  subst hout
  refine ⟨?_, fun s hs => ?_⟩
  · rintro _ _ ⟨⟩
    exact .inr ((hP stop).mpr rfl)
  · obtain rfl := (hP s).mp hs
    exact ⟨vm, rfl⟩

theorem congr {out : EStateM.Result Stop Vm α} (h : Aborts out P) (hPQ : ∀ s, P s ↔ Q s) :
    Aborts out Q :=
  ⟨fun s vm hs => (h.only s vm hs).imp_right (hPQ s).mp, fun s hs => h.ends s ((hPQ s).mpr hs)⟩

theorem of_recovers {out : EStateM.Result Stop Vm α} (h : Recovers out) (hP : ∀ s, ¬ P s) :
    Aborts out P :=
  h.congr fun s => ⟨False.elim, hP s⟩

/-- What comes after the part that may end the system never does. -/
theorem bind (ha : Aborts (a vm) P) (hf : ∀ x vm', a vm = .ok x vm' → Recovers (f x vm')) :
    Aborts ((a >>= f) vm) P := by
  cases hrun : a vm with
  | ok x vm' =>
    rw [bind_ok hrun]
    refine of_recovers (hf x vm' hrun) fun s hs => ?_
    obtain ⟨vm'', hend⟩ := ha.ends s hs
    rw [hrun] at hend
    cases hend
  | error e vm' =>
    rw [bind_error hrun]
    rw [hrun] at ha
    refine ⟨?_, fun s hs => ?_⟩
    · rintro _ _ ⟨⟩
      exact ha.only e vm' rfl
    · obtain ⟨vm'', hend⟩ := ha.ends s hs
      cases hend
      exact ⟨vm', rfl⟩

/-- A part that changes nothing comes before one that never ends the system. -/
theorem reading [hr : Reads a] (ha : Recovers (a vm)) (hf : ∀ x, Recovers (f x vm)) :
    Recovers ((a >>= f) vm) :=
  ha.bind fun x _ hrun => Reads.of_ok hrun ▸ hf x

/-- A part that has an answer comes before the part that may end the system. -/
theorem after {x : α} (hrun : a vm = .ok x vm') (hf : Aborts (f x vm') P) :
    Aborts ((a >>= f) vm) P := by
  rw [bind_ok hrun]
  exact hf

/-- The same for a question to the heap. -/
theorem asking {q : Heap → Except Fatal α} {x : α} (hq : q vm.heap = .ok x)
    (hf : Aborts (f x vm) P) : Aborts ((Action.ofHeap q >>= f) vm) P :=
  after (Vm.ofHeap_run hq) hf

theorem inspecting {r : Ref} {p : Payload} {f : Payload → Action β}
    (hp : vm.heap.payload r = .ok p) (hf : Aborts (f p vm) P) :
    Aborts ((Vm.payload r >>= f) vm) P :=
  after (Vm.payload_eq_ok.mpr ⟨hp, rfl⟩) hf

theorem of_answered {q : Heap → Except Fatal α} (hq : Answered (q vm.heap)) :
    Recovers (Action.ofHeap q vm) := by
  obtain ⟨x, hx⟩ := hq
  rw [Vm.ofHeap_run hx]
  exact ok x vm

end Aborts

/-! ## Actions that make objects -/

namespace Sure

theorem recovers {α : Type} (a : Action α) [h : Sure a] (vm : Vm) : Recovers (a vm) := by
  obtain ⟨x, vm', hrun⟩ := h.ok vm
  rw [hrun]
  exact .ok x vm'

instance nil : Sure Vm.nil := ⟨fun vm => ⟨_, vm, rfl⟩⟩

instance bool (b : Bool) : Sure (Vm.bool b) := ⟨fun vm => ⟨_, vm, rfl⟩⟩

instance newInt (i : Int64) : Sure (Vm.newInt i) := new _ _

instance newFloat (x : Float) : Sure (Vm.newFloat x) := new _ _

instance newBytes (b : ByteArray) : Sure (Vm.newBytes b) := new _ _

instance newStr (s : String) : Sure (Vm.newStr s) := newBytes _

instance newArray (items : List Ref) : Sure (Vm.newArray items) := new _ _

instance newStrs (ss : List String) : Sure (Vm.newStrs ss) := by
  induction ss with
  | nil => unfold Vm.newStrs; infer_instance
  | cons s rest ih => unfold Vm.newStrs; infer_instance

instance newError (message : String) (cause : Option Ref) : Sure (Vm.newError message cause) :=
  ⟨fun vm => (new .error (.error ⟨message, cause, vm.backtrace⟩)).ok vm⟩

instance addClass (c : Class) : Sure (Vm.addClass c) := by
  unfold Vm.addClass; infer_instance

end Sure

/-! ## Questions about live objects -/

theorem Heap.classOf_eq {h : Heap} {r : Ref} {o : Obj} (ho : h.get r = .ok o) :
    h.classOf r = .ok o.cls := by
  simp [Heap.classOf, ho]

namespace Heap.Sound

variable {h : Heap} {r : Ref}

theorem payload (hr : h.contains r = true) : Answered (h.payload r) := by
  obtain ⟨o, ho⟩ := contains_iff.mp hr
  exact ⟨o.payload, payload_eq_ok_iff.mpr ⟨o.cls, ho⟩⟩

theorem className (hs : h.Sound) (hr : h.contains r = true) : Answered (h.className r) := by
  obtain ⟨o, ho⟩ := contains_iff.mp hr
  obtain ⟨c, hc⟩ := (hs.traces r o ho).cls
  exact .bind_ok (classOf_eq ho) (.bind_ok hc (.return_ c.name))

theorem lookupMethod (hs : h.Sound) {c : Class} (hc : h.cls r = .ok c) (name : String) :
    Answered (h.lookupMethod r name) := by
  obtain ⟨cs, hl⟩ := hs.lineage r c hc
  exact ⟨_, hl.findInChain⟩

/-- The entries of method tables are there. -/
theorem lookupMethod_live (hs : h.Sound) {c : Class} (hc : h.cls r = .ok c) {name : String}
    {m : Ref} (hm : h.lookupMethod r name = .ok (some m)) : h.contains m = true := by
  obtain ⟨cs, hl⟩ := hs.lineage r c hc
  have hfind : cs.findSome? (fun c => c.methods.find? name) = some m :=
    Except.ok.inj (hl.findInChain.symm.trans hm)
  obtain ⟨d, hd, hentry⟩ := List.exists_of_findSome?_eq_some hfind
  obtain ⟨x, hx⟩ := hl.mem hd
  obtain ⟨k, hget⟩ := cls_eq_ok.mp hx
  exact Closed.refs_live hs.closed (payload_eq_ok_iff.mpr ⟨k, hget⟩)
    (List.mem_append_right _ (NameMap.mem_values hentry))

end Heap.Sound

/-- Where the classes are what they were, so are the chains. -/
theorem Heap.Lineage.keep {h h' : Heap} {r : Ref} {cs : List Class} (hl : h.Lineage r cs)
    (hkeep : ∀ x c, h.cls x = .ok c → h'.cls x = .ok c) : h'.Lineage r cs := by
  induction hl with
  | root hc hs => exact .root (hkeep _ _ hc) hs
  | step hc hs _ ih => exact .step (hkeep _ _ hc) hs ih

/-- A new object makes no difference to the look-up of methods. -/
theorem Heap.Sound.lookupMethod_place {h : Heap} (hs : h.Sound) {r : Ref} {c : Class}
    (hc : h.cls r = .ok c) (o : Obj) (name : String) :
    (h.place o).2.lookupMethod r name = h.lookupMethod r name := by
  obtain ⟨cs, hl⟩ := hs.lineage r c hc
  have hl' : (h.place o).2.Lineage r cs := hl.keep fun x c hc => by
    obtain ⟨k, hk⟩ := cls_eq_ok.mp hc
    exact cls_eq_ok.mpr ⟨k, get_place_of_get hs.freeList o hk⟩
  exact hl'.findInChain.trans hl.findInChain.symm

/-! ## Actions on live objects -/

namespace Vm

variable {vm : Vm} {r : Ref}

/-- A new object of a class of the heap. -/
theorem alloc_ok {cls : Ref} (hcls : vm.heap.contains cls = true) (p : Payload) :
    alloc cls p vm = .ok (vm.heap.place ⟨cls, p⟩).1
      { vm with heap := (vm.heap.place ⟨cls, p⟩).2 } := by
  have hown : vm.heap.checkOwn cls = .ok () := if_pos (Heap.contains_heap hcls)
  unfold alloc
  rw [hown]

/-- The function that the class of an object finds. -/
theorem require_ok {α : Type} {slot : Slot} {pick : Slots → Option α} {o : Obj} {f : α}
    (ho : vm.heap.get r = .ok o) (hf : vm.heap.requireSlot slot pick o.cls = .ok f) :
    require slot pick r vm = .ok f vm := by
  have hanswer : (do
      let k ← vm.heap.classOf r
      vm.heap.requireSlot slot pick k) = .ok f := by
    rw [Heap.classOf_eq ho]
    exact hf
  exact ofHeap_run hanswer

/-- Construction runs the constructor that the class finds. -/
theorem construct_run {cls : Ref} {f : InitFn}
    (hf : vm.heap.requireSlot .init Slots.init cls = .ok f) (args : List Ref) :
    construct cls args vm = runInit f cls args vm :=
  bind_ok (ofHeap_run hf)

theorem mismatch_recovers {α : Type} (hlive : vm.Live) (expected : String)
    (hr : vm.heap.contains r = true) : Recovers ((mismatch expected r : Action α) vm) := by
  obtain ⟨c, hc⟩ := hlive.heap.className hr
  exact .asking hc (.raise _)

/-- A question about the payload: an object of another kind is reported. -/
theorem inspect_recovers {α : Type} (hlive : vm.Live) (hr : vm.heap.contains r = true)
    (expected : String) {f : Payload → Action α}
    (hf : ∀ p, (∃ x, f p = pure x) ∨ f p = mismatch expected r) :
    Recovers ((payload r >>= f) vm) := by
  obtain ⟨p, hp⟩ := Heap.Sound.payload hr
  refine .inspecting hp ?_
  rcases hf p with ⟨x, hx⟩ | hmismatch
  · rw [hx]
    exact .return_ x
  · rw [hmismatch]
    exact mismatch_recovers hlive expected hr

theorem numberOf_recovers (hlive : vm.Live) (hr : vm.heap.contains r = true) :
    Recovers (numberOf r vm) :=
  inspect_recovers hlive hr "number" fun p => by
    cases p <;> first | exact .inl ⟨_, rfl⟩ | exact .inr rfl

theorem intOf_recovers (hlive : vm.Live) (hr : vm.heap.contains r = true) :
    Recovers (intOf r vm) :=
  inspect_recovers hlive hr "int" fun p => by
    cases p <;> first | exact .inl ⟨_, rfl⟩ | exact .inr rfl

theorem bytesOf_recovers (hlive : vm.Live) (hr : vm.heap.contains r = true) :
    Recovers (bytesOf r vm) :=
  inspect_recovers hlive hr "string" fun p => by
    cases p <;> first | exact .inl ⟨_, rfl⟩ | exact .inr rfl

theorem itemsOf_recovers (hlive : vm.Live) (hr : vm.heap.contains r = true) :
    Recovers (itemsOf r vm) :=
  inspect_recovers hlive hr "array" fun p => by
    cases p <;> first | exact .inl ⟨_, rfl⟩ | exact .inr rfl

theorem textOf_recovers (hlive : vm.Live) (hr : vm.heap.contains r = true) :
    Recovers (textOf r vm) :=
  (bytesOf_recovers hlive hr).bind fun _ _ _ => .return_ _

theorem toInt_recovers (hlive : vm.Live) (hr : vm.heap.contains r = true) :
    Recovers (toInt r vm) := by
  refine inspect_recovers hlive hr "int" fun p => ?_
  cases p with
  | str b =>
    dsimp only
    cases (Text.decode? b).bind fun s => Decimal.integer? (Text.trim s.toList) with
    | some i => exact .inl ⟨i, rfl⟩
    | none => exact .inr rfl
  | _ => first | exact .inl ⟨_, rfl⟩ | exact .inr rfl

theorem toFloat_recovers (hlive : vm.Live) (hr : vm.heap.contains r = true) :
    Recovers (toFloat r vm) := by
  refine inspect_recovers hlive hr "number" fun p => ?_
  cases p with
  | str b =>
    dsimp only
    cases (Text.decode? b).bind fun s => Decimal.float? (Text.trim s.toList) with
    | some x => exact .inl ⟨x, rfl⟩
    | none => exact .inr rfl
  | _ => first | exact .inl ⟨_, rfl⟩ | exact .inr rfl

theorem mismatch_bind_recovers {α β : Type} (hlive : vm.Live) (expected : String)
    (hr : vm.heap.contains r = true) (f : α → Action β) :
    Recovers ((mismatch expected r >>= f) vm) := by
  obtain ⟨c, hc⟩ := hlive.heap.className hr
  unfold mismatch
  rw [bind_assoc]
  exact .asking hc (.raise (α := β) _)

/-- A super class is a class, if there is any. -/
theorem superOf_recovers {α : Type} (hlive : vm.Live) (hr : vm.heap.contains r = true)
    {f : Option Ref → Action α} (hnone : Recovers (f none vm))
    (hsome : ∀ c, vm.heap.cls r = .ok c → Recovers (f (some r) vm)) :
    Recovers ((superOf r >>= f) vm) := by
  obtain ⟨o, ho⟩ := Heap.contains_iff.mp hr
  unfold superOf
  rw [bind_assoc]
  refine .inspecting (Heap.payload_eq_ok_iff.mpr ⟨o.cls, ho⟩) ?_
  obtain ⟨k, p⟩ := o
  cases p with
  | nil => exact hnone
  | cls c => exact hsome c (Heap.cls_eq_ok.mpr ⟨k, ho⟩)
  | _ => exact mismatch_bind_recovers hlive "class" hr f

theorem classNew_recovers (name : String) {super : Option Ref} (size : Nat)
    (hsuper : ∀ s, super = some s → ∃ c, vm.heap.cls s = .ok c) :
    Recovers (classNew name super size vm) := by
  cases super with
  | none => exact Sure.recovers (addClass _) vm
  | some s =>
    obtain ⟨c, hc⟩ := hsuper s rfl
    exact .asking hc (Sure.recovers (addClass _) vm)

theorem classNewFrom_recovers (hlive : vm.Live) {args : List Ref}
    (hargs : ∀ r ∈ args, vm.heap.contains r = true) : Recovers (classNewFrom args vm) := by
  unfold classNewFrom
  split
  case h_2 => exact .raise _
  rename_i name super size
  have hsize : vm.heap.contains size = true := hargs size (by simp)
  refine (textOf_recovers hlive (hargs name (by simp))).reading fun name => ?_
  obtain ⟨p, hp⟩ := Heap.Sound.payload hsize
  refine superOf_recovers hlive (hargs super (by simp)) (.inspecting hp ?_) fun c hc =>
    .inspecting hp ?_
  all_goals
    cases p with
    | int n =>
      dsimp only
      by_cases hn : 0 ≤ n.toInt
      · rw [if_pos hn]
        refine classNew_recovers name _ ?_
        rintro _ ⟨⟩ <;> exact ⟨c, hc⟩
      · rw [if_neg hn]
        exact mismatch_recovers hlive "int" hsize
    | _ => exact mismatch_recovers hlive "int" hsize

end Vm
end ObjectMachine
