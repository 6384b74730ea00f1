import ObjectMachine.Proofs.Renaming.Copies
import ObjectMachine.Proofs.Renaming.Frames
import ObjectMachine.Proofs.Renaming.Operators
import ObjectMachine.Vm.Call

/-!
# ObjectMachine.Proofs.Renaming.Calls

Calls, constructors and native functions do the same in related states, with one exception: the
native function that collects garbage tells how much there was.

* `Reply.Related` — replies that go on in the same way.
* `Leads.runNative` — every native function but that one.
* `Leads.construct` — constructors. What they make is traced by the class they make it of.
* `Ends.call` — any call that is not one of that native function.
-/

namespace ObjectMachine

variable {ρ : Renaming} {r s : Ref}

/-- Replies that go on in the same way. An object that waits to be filled is held by the method
that fills it. -/
inductive Reply.Related (ρ : Renaming) (v : Vm) : Reply → Reply → Prop where
  | value {r s : Ref} : ρ r s → Reply.Related ρ v (.value r) (.value s)
  | call {r s : Ref} {args args' : List Ref} :
      ρ r s → List.Forall₂ ρ args args' → Reply.Related ρ v (.call r args) (.call s args')
  | attempt {r s : Ref} {args args' : List Ref} :
      ρ r s → List.Forall₂ ρ args args' → Reply.Related ρ v (.attempt r args) (.attempt s args')
  | construct {r s : Ref} {args args' : List Ref} :
      ρ r s → List.Forall₂ ρ args args' → Reply.Related ρ v (.construct r args) (.construct s args')
  | fill {obj obj' init init' : Ref} {args args' : List Ref} :
      ρ obj obj' → ρ init init' → v.heap.Binds init obj → List.Forall₂ ρ args args' →
      Reply.Related ρ v (.fill obj init args) (.fill obj' init' args')
  | entered (floor base : Nat) : Reply.Related ρ v (.entered floor base) (.entered floor base)
  | wait (request : Request) : Reply.Related ρ v (.wait request) (.wait request)

/-- An action that answers a value. -/
theorem Respects.value {a b : Action Ref} (h : Respects ρ a b Renamed) :
    Leads ρ (a >>= fun r => pure (.value r)) (b >>= fun s => pure (.value s)) Reply.Related :=
  h.bind fun _ _ _ _ hrs => Leads.return_ fun _ => .value hrs

/-- A wrong number of arguments. -/
theorem Leads.arity {α β : Type} {R : Renaming → Vm → α → β → Prop} (name : String)
    (expected : Nat) {args args' : List Ref} (h : List.Forall₂ ρ args args') :
    Leads ρ (Action.raise (.arity name expected args.length) : Action α)
      (Action.raise (.arity name expected args'.length) : Action β) R := by
  rw [h.length_eq]
  exact raise nofun

/-! ## Natives -/

theorem Observes.displayLine {values values' : List Ref} (h : List.Forall₂ ρ values values') :
    Observes ρ (Vm.displayLine values) (Vm.displayLine values') Eq := by
  unfold Vm.displayLine
  refine (ofHeap fun _ _ hr => Agree.mapM h hr.display).bind fun ts us htu => return_ ?_
  rw [List.forall₂_eq_eq_eq] at htu
  rw [htu]

theorem Observes.requestSpawn (hrs : ρ r s) :
    Observes ρ (Vm.requestSpawn r) (Vm.requestSpawn s) Eq := by
  unfold Vm.requestSpawn
  exact (pack hrs).bindEq fun body => return_ rfl

theorem Observes.requestJoin (hrs : ρ r s) :
    Observes ρ (Vm.requestJoin r) (Vm.requestJoin s) Eq := by
  unfold Vm.requestJoin
  refine (taskOf hrs).bindEq fun t => get_bind fun v w hvw => ?_
  rw [hvw.task]
  by_cases hself : t = w.task
  · rw [if_pos hself]
    exact raise nofun
  · rw [if_neg hself]
    cases t.isMain with
    | true => exact raise nofun
    | false => exact return_ rfl

theorem Observes.superOf (hrs : ρ r s) :
    Observes ρ (Vm.superOf r) (Vm.superOf s) (Option.Rel ρ) := by
  unfold Vm.superOf
  refine (payload hrs).bind fun p q hpq => ?_
  cases hpq with
  | nil => exact return_ .none
  | cls _ => exact return_ (.some hrs)
  | _ => exact mismatch _ hrs

theorem Observes.expectClass (hrs : ρ r s) :
    Observes ρ (Vm.expectClass r) (Vm.expectClass s) Eq := by
  unfold Vm.expectClass
  refine (payload hrs).bind fun p q hpq => ?_
  cases hpq with
  | cls _ => exact return_ rfl
  | _ => exact mismatch _ hrs

theorem Observes.getSlot? (hrs : ρ r s) (i : Nat) :
    Observes ρ (Vm.getSlot? r i) (Vm.getSlot? s i) (Option.Rel ρ) := by
  unfold Vm.getSlot?
  refine (payload hrs).bind fun p q hpq => ?_
  cases hpq with
  | object h =>
    have hi := forall₂_getElem? h i
    rw [Array.getElem?_toList, Array.getElem?_toList] at hi
    exact return_ hi
  | _ => exact return_ .none

namespace Respects

theorem requestSend {x y : Ref} (hrs : ρ r s) (hxy : ρ x y) :
    Respects ρ (Vm.requestSend r x) (Vm.requestSend s y) Equal := by
  unfold Vm.requestSend
  refine (Observes.taskOf hrs).andEq fun t => (Observes.pack hxy).andEq fun message => ?_
  exact (trace _ _ _ _).bind fun _ _ _ _ _ => return_ rfl

theorem print {values values' : List Ref} (h : List.Forall₂ ρ values values') :
    Leads ρ (Vm.runNative .print values) (Vm.runNative .print values') Reply.Related := by
  refine (Observes.displayLine h).andEq fun line => ?_
  refine bind (R := Anything) ?_ fun σ hσ _ _ _ => Observes.nil.respects.value
  exact changing (fun _ _ h => { h with output := congrArg (· ++ line ++ "\n") h.output }) fun _ =>
    .of_eq rfl rfl

theorem classNewFrom {args args' : List Ref} (h : List.Forall₂ ρ args args') :
    Respects ρ (Vm.classNewFrom args) (Vm.classNewFrom args') Renamed := by
  rcases h with _ | ⟨hname, _ | ⟨hsuper, _ | ⟨hsize, _ | ⟨hmore, h⟩⟩⟩⟩
  · exact Leads.arity _ _ .nil
  · exact Leads.arity _ _ (.cons hname .nil)
  · exact Leads.arity _ _ (.cons hname (.cons hsuper .nil))
  · unfold Vm.classNewFrom
    refine (Observes.textOf hname).andEq fun name => ?_
    refine (Observes.superOf hsuper).andThen fun x y hxy => ?_
    refine (Observes.payload hsize).andThen fun p q hpq => ?_
    cases hpq with
    | int n =>
      dsimp only
      split
      · exact classNew name hxy _
      · exact Leads.mismatch _ hsize
    | _ => exact Leads.mismatch _ hsize
  · exact Leads.arity _ _ (.cons hname (.cons hsuper (.cons hsize (.cons hmore h))))

theorem defineFrom {args args' : List Ref} (h : List.Forall₂ ρ args args') :
    Respects ρ (Vm.defineFrom args) (Vm.defineFrom args') Renamed := by
  rcases h with _ | ⟨hcls, _ | ⟨hname, _ | ⟨hmethod, _ | ⟨hmore, h⟩⟩⟩⟩
  · exact Leads.arity _ _ .nil
  · exact Leads.arity _ _ (.cons hcls .nil)
  · exact Leads.arity _ _ (.cons hcls (.cons hname .nil))
  · unfold Vm.defineFrom
    refine (Observes.expectClass hcls).andEq fun _ => ?_
    refine (Observes.textOf hname).andEq fun name => ?_
    exact (defineMethod hcls name hmethod).bind fun σ hσ _ _ _ => return_ (hσ _ _ hcls)
  · exact Leads.arity _ _ (.cons hcls (.cons hname (.cons hmethod (.cons hmore h))))

theorem arrayPush {x y : Ref} (hrs : ρ r s) (hxy : ρ x y) :
    Respects ρ (Vm.arrayPush r x) (Vm.arrayPush s y) Anything := by
  unfold Vm.arrayPush
  refine (Observes.payload hrs).andThen fun p q hpq => ?_
  cases hpq with
  | array h =>
    refine setItems hrs ?_
    rw [Array.toList_push, Array.toList_push]
    exact List.rel_append h (.cons hxy .nil)
  | _ => exact Leads.mismatch _ hrs

theorem arrayPop (hrs : ρ r s) : Respects ρ (Vm.arrayPop r) (Vm.arrayPop s) Renamed := by
  unfold Vm.arrayPop
  refine (Observes.payload hrs).andThen fun p q hpq => ?_
  cases hpq with
  | @array xs ys h =>
    have hlast : Option.Rel ρ xs.back? ys.back? := by
      rw [← Array.getLast?_toList, ← Array.getLast?_toList]
      exact forall₂_getLast? h
    refine bind (R := Anything) (setItems hrs ?_) fun σ hσ _ _ _ => ?_
    · rw [Array.toList_pop, Array.toList_pop]
      exact forall₂_dropLast h
    · generalize xs.back? = x, ys.back? = y at hlast ⊢
      cases hlast with
      | some hxy => exact return_ (hσ _ _ hxy)
      | none => exact Observes.nil.respects
  | _ => exact Leads.mismatch _ hrs

theorem setSlot {x y : Ref} (hrs : ρ r s) (i : Nat) (hxy : ρ x y) :
    Respects ρ (Vm.setSlot r i x) (Vm.setSlot s i y) Equal := by
  unfold Vm.setSlot
  refine (Observes.payload hrs).andThen fun p q hpq => ?_
  cases hpq with
  | @object xs ys h =>
    have hlen : xs.size = ys.size := by simpa using h.length_eq
    dsimp only
    rw [hlen]
    split
    · refine bind (R := Anything) (setSlots hrs ?_) fun _ _ _ _ _ => return_ rfl
      rw [Array.toList_setIfInBounds, Array.toList_setIfInBounds]
      exact forall₂_set h hxy i
    · exact return_ rfl
  | _ => exact return_ rfl

/-- A missing key is no failure of `hashGet`, on neither side. -/
theorem hashGet {k k' : Ref} (hrs : ρ r s) (hk : ρ k k') :
    Respects ρ (Vm.hashGet r k) (Vm.hashGet s k') Renamed := by
  intro v w hvw
  have h := getItem hrs hk v w hvw
  unfold Vm.hashGet
  generalize Vm.getItem r k v = x, Vm.getItem s k' w = y at h ⊢
  cases h with
  | ok hσ hrel hkeep hR => exact .ok hσ hrel hkeep hR
  | error hσ hrel hkeep he =>
    cases he with
    | crashed => exact .error hσ hrel hkeep .crashed
    | fatal hf => exact .error hσ hrel hkeep (.fatal hf)
    | @raised e f hef =>
      cases hef with
      | panic hv => exact .error hσ hrel hkeep (.raised (.panic hv))
      | same hne =>
        cases e with
        | noItem => exact .ok hσ hrel hkeep hrel.heap.nil
        | _ => exact .error hσ hrel hkeep (.raised (.same hne))

end Respects

namespace Leads

section Arity

variable {f : Native} {args args' : List Ref}

theorem nullary (h : List.Forall₂ ρ args args')
    (hmore : ∀ a rest, Vm.runNative f (a :: rest) =
      Action.raise (.arity f.name 0 (a :: rest).length))
    (hnone : Leads ρ (Vm.runNative f []) (Vm.runNative f []) Reply.Related) :
    Leads ρ (Vm.runNative f args) (Vm.runNative f args') Reply.Related := by
  cases h with
  | nil => exact hnone
  | cons hx h =>
    rw [hmore, hmore]
    exact arity _ _ (.cons hx h)

theorem unary (h : List.Forall₂ ρ args args')
    (hnone : Vm.runNative f [] = Action.raise (.arity f.name 1 0))
    (hmore : ∀ a b rest, Vm.runNative f (a :: b :: rest) =
      Action.raise (.arity f.name 1 (a :: b :: rest).length))
    (hone : ∀ x y, ρ x y → Leads ρ (Vm.runNative f [x]) (Vm.runNative f [y]) Reply.Related) :
    Leads ρ (Vm.runNative f args) (Vm.runNative f args') Reply.Related := by
  rcases h with _ | ⟨hx, _ | ⟨hy, h⟩⟩
  · rw [hnone]
    exact raise nofun
  · exact hone _ _ hx
  · rw [hmore, hmore]
    exact arity _ _ (.cons hx (.cons hy h))

theorem binary (h : List.Forall₂ ρ args args')
    (hnone : Vm.runNative f [] = Action.raise (.arity f.name 2 0))
    (hone : ∀ a, Vm.runNative f [a] = Action.raise (.arity f.name 2 1))
    (hmore : ∀ a b c rest, Vm.runNative f (a :: b :: c :: rest) =
      Action.raise (.arity f.name 2 (a :: b :: c :: rest).length))
    (htwo : ∀ x y u v, ρ x y → ρ u v →
      Leads ρ (Vm.runNative f [x, u]) (Vm.runNative f [y, v]) Reply.Related) :
    Leads ρ (Vm.runNative f args) (Vm.runNative f args') Reply.Related := by
  rcases h with _ | ⟨hx, _ | ⟨hy, _ | ⟨hz, h⟩⟩⟩
  · rw [hnone]
    exact raise nofun
  · rw [hone, hone]
    exact raise nofun
  · exact htwo _ _ _ _ hx hy
  · rw [hmore, hmore]
    exact arity _ _ (.cons hx (.cons hy (.cons hz h)))

end Arity

theorem hashSetNative {args args' : List Ref} (h : List.Forall₂ ρ args args') :
    Leads ρ (Vm.runNative .hashSet args) (Vm.runNative .hashSet args') Reply.Related := by
  have hall := h
  rcases h with _ | ⟨hx, _ | ⟨hy, _ | ⟨hz, _ | _⟩⟩⟩
  · exact arity _ _ hall
  · exact arity _ _ hall
  · exact arity _ _ hall
  · exact (Respects.hashSet hx hy hz).bind fun σ hσ _ _ _ => return_ fun _ => .value (hσ _ _ hx)
  · exact arity _ _ hall

theorem slotGetNative {args args' : List Ref} (h : List.Forall₂ ρ args args') :
    Leads ρ (Vm.runNative .slotGet args) (Vm.runNative .slotGet args') Reply.Related := by
  rcases h with _ | ⟨hobj, _ | ⟨hi, _⟩⟩
  · exact fails .crashed
  · exact fails .crashed
  · refine (Observes.payload hi).andThen fun p q hpq => ?_
    cases hpq with
    | int n =>
      refine (Observes.getSlot? hobj _).andThen fun x y hxy => ?_
      cases hxy with
      | some h => exact return_ fun _ => .value h
      | none => exact fails .crashed
    | _ => exact fails .crashed

theorem slotSetNative {args args' : List Ref} (h : List.Forall₂ ρ args args') :
    Leads ρ (Vm.runNative .slotSet args) (Vm.runNative .slotSet args') Reply.Related := by
  rcases h with _ | ⟨hobj, _ | ⟨hi, _ | ⟨hvalue, _⟩⟩⟩
  · exact fails .crashed
  · exact fails .crashed
  · exact fails .crashed
  · refine (Observes.payload hi).andThen fun p q hpq => ?_
    cases hpq with
    | int n =>
      refine (Respects.setSlot hobj _ hvalue).bind fun σ hσ done _ heq => ?_
      obtain rfl : done = _ := heq
      cases done with
      | true => exact return_ fun _ => .value (hσ _ _ hobj)
      | false => exact fails .crashed
    | _ => exact fails .crashed

/-- Every native function but the one that collects garbage. -/
theorem runNative (f : Native) (hf : f ≠ .collect) {args args' : List Ref}
    (h : List.Forall₂ ρ args args') :
    Leads ρ (Vm.runNative f args) (Vm.runNative f args') Reply.Related := by
  cases f with
  | collect => exact absurd rfl hf
  | print => exact Respects.print h
  | str => exact unary h rfl (fun _ _ _ => rfl) fun x y hxy => (Respects.strOf hxy).value
  | classNew => exact (Respects.classNewFrom h).value
  | define => exact (Respects.defineFrom h).value
  | importModule =>
    refine unary h rfl (fun _ _ _ => rfl) fun x y hxy => ?_
    exact (Observes.textOf hxy).andEq fun name => (Respects.importModule name).value
  | makeError =>
    exact get_bind fun v w hvw => return_ fun _ => .construct (hvw.heap.builtin .error) h
  | raise =>
    exact unary h rfl (fun _ _ _ => rfl) fun x y hxy => fails (.raised (.panic hxy))
  | spawn =>
    refine unary h rfl (fun _ _ _ => rfl) fun x y hxy => ?_
    exact (Observes.requestSpawn hxy).andEq fun request => return_ fun _ => .wait request
  | send =>
    refine binary h rfl (fun _ => rfl) (fun _ _ _ _ => rfl) fun x y a b hxy hab => ?_
    refine (Respects.requestSend hxy hab).bind fun σ hσ request _ heq => ?_
    exact heq ▸ return_ fun _ => .wait request
  | taskSend =>
    refine binary h rfl (fun _ => rfl) (fun _ _ _ _ => rfl) fun x y a b hxy hab => ?_
    refine (Respects.requestSend hxy hab).bind fun σ hσ request _ heq => ?_
    exact heq ▸ return_ fun _ => .wait request
  | receive => exact nullary h (fun _ _ => rfl) (return_ fun _ => .wait _)
  | join =>
    refine unary h rfl (fun _ _ _ => rfl) fun x y hxy => ?_
    exact (Observes.requestJoin hxy).andEq fun request => return_ fun _ => .wait request
  | taskJoin =>
    refine unary h rfl (fun _ _ _ => rfl) fun x y hxy => ?_
    exact (Observes.requestJoin hxy).andEq fun request => return_ fun _ => .wait request
  | currentTask => exact nullary h (fun _ _ => rfl) Respects.currentTask.value
  | strLen =>
    refine unary h rfl (fun _ _ _ => rfl) fun x y hxy => ?_
    exact (Observes.bytesOf hxy).andEq fun b => (Respects.newLength _).value
  | arrayPush =>
    refine binary h rfl (fun _ => rfl) (fun _ _ _ _ => rfl) fun x y a b hxy hab => ?_
    refine (Respects.arrayPush hxy hab).bind fun σ hσ _ _ _ => ?_
    exact return_ fun _ => .value (hσ _ _ hxy)
  | arrayPop => exact unary h rfl (fun _ _ _ => rfl) fun x y hxy => (Respects.arrayPop hxy).value
  | arrayLen =>
    refine unary h rfl (fun _ _ _ => rfl) fun x y hxy => ?_
    refine (Observes.itemsOf hxy).andThen fun xs ys hxys => ?_
    have hlen : xs.size = ys.size := by simpa using hxys.length_eq
    rw [hlen]
    exact (Respects.newLength _).value
  | hashSet => exact hashSetNative h
  | hashGet =>
    refine binary h rfl (fun _ => rfl) (fun _ _ _ _ => rfl) fun x y a b hxy hab => ?_
    exact (Respects.hashGet hxy hab).value
  | hashLen =>
    refine unary h rfl (fun _ _ _ => rfl) fun x y hxy => ?_
    refine (Observes.tableOf hxy).andThen fun t u htu => ?_
    rw [htu.size]
    exact (Respects.newLength _).value
  | hashKeys =>
    refine unary h rfl (fun _ _ _ => rfl) fun x y hxy => ?_
    exact (Observes.tableOf hxy).andThen fun t u htu => (Respects.newArray htu.keys).value
  | taskNumber =>
    refine unary h rfl (fun _ _ _ => rfl) fun x y hxy => ?_
    exact (Observes.taskOf hxy).andEq fun t => (Respects.newLength _).value
  | answer => exact (Respects.newInt 42).value
  | arguments => exact (Respects.newArray h).value
  | fail => exact Leads.raise nofun
  | apply =>
    cases h with
    | nil => exact fails .crashed
    | cons hx h => exact return_ fun _ => .call hx h
  | attempt =>
    cases h with
    | nil => exact fails .crashed
    | cons hx h => exact return_ fun _ => .attempt hx h
  | depth =>
    refine get_bind fun v w hvw => ?_
    rw [show v.depth = w.depth from hvw.frames_size]
    exact (Respects.newLength _).value
  | backtrace =>
    refine get_bind fun v w hvw => ?_
    rw [hvw.backtrace]
    exact (Respects.newStrs _).bind fun σ hσ xs ys hxys => (Respects.newArray hxys).value
  | slotGet => exact slotGetNative h
  | slotSet => exact slotSetNative h

end Leads

/-! ## Constructors -/

/-- The tracing function for what a constructor makes of the class it is given. -/
def InitFn.mark? : InitFn → Option MarkFn
  | .object => some .object
  | .array => some .array
  | .hash => some .hash
  | _ => none

theorem Slots.Standard.mark_of_init {t : Slots} (h : t.Standard) {f : InitFn} (hf : t.init = some f)
    {m : MarkFn} (hm : f.mark? = some m) : t.mark = some m := by
  rcases h with ⟨k, rfl⟩ | ⟨str, rfl⟩
  · cases k <;> cases hf <;> cases hm <;> rfl
  · cases hf

/-- The chain of a class has the constructor, and the tracing function for what it makes. -/
def Heap.Constructs (h : Heap) (cls : Ref) (f : InitFn) : Prop :=
  ∃ cs, h.Lineage cls cs ∧ ∀ m, f.mark? = some m → ∃ c ∈ cs, c.slots.mark = some m

theorem Heap.Sound.constructs {h : Heap} (hs : h.Sound) {cls : Ref} {f : InitFn}
    (hf : h.requireSlot .init Slots.init cls = .ok f) : h.Constructs cls f := by
  have hfound : h.findSlot Slots.init cls = .ok (some f) := by
    unfold Heap.requireSlot at hf
    cases hs : h.findSlot Slots.init cls with
    | error e => rw [hs] at hf; cases hf
    | ok found =>
      rw [hs] at hf
      cases found with
      | some g => cases hf; rfl
      | none =>
        cases hc : h.cls cls with
        | error e => simp [bind, Except.bind, hc] at hf
        | ok c => simp [bind, Except.bind, hc, throw, throwThe, MonadExceptOf.throw] at hf
  cases hc : h.cls cls with
  | error e =>
    unfold Heap.findSlot Heap.findInChain Heap.findFrom at hfound
    rw [hc] at hfound
    cases hfound
  | ok c =>
    obtain ⟨cs, hl⟩ := hs.lineage cls c hc
    unfold Heap.findSlot at hfound
    rw [hl.findInChain] at hfound
    obtain ⟨d, hd, hinit⟩ := List.exists_of_findSome?_eq_some (Except.ok.inj hfound)
    obtain ⟨x, hx⟩ := hl.mem hd
    exact ⟨cs, hl, fun m hm => ⟨d, hd, (hs.slots x d hx).mark_of_init hinit hm⟩⟩

theorem Heap.Constructs.admits {h : Heap} {cls : Ref} {f : InitFn} (hc : h.Constructs cls f)
    {p : Payload} (hp : ∀ m, p.markFn? = some m → f.mark? = some m)
    (hrefs : ∀ x ∈ p.refs, h.contains x = true) : h.Admits cls p := by
  obtain ⟨cs, hl, hmark⟩ := hc
  refine ⟨⟨cs, hl, fun m hm => hmark m (hp m hm)⟩, hrefs, ?_⟩
  rintro c rfl
  have hf := hp .cls rfl
  cases f <;> cases hf

theorem Observes.toInt (hrs : ρ r s) : Observes ρ (Vm.toInt r) (Vm.toInt s) Eq := by
  unfold Vm.toInt
  refine (payload hrs).bind fun p q hpq => ?_
  cases hpq with
  | int i => exact return_ rfl
  | float x => exact return_ rfl
  | bool b => exact return_ rfl
  | str b =>
    dsimp only
    split
    · exact return_ rfl
    · exact mismatch _ hrs
  | _ => exact mismatch _ hrs

theorem Observes.toFloat (hrs : ρ r s) : Observes ρ (Vm.toFloat r) (Vm.toFloat s) Eq := by
  unfold Vm.toFloat
  refine (payload hrs).bind fun p q hpq => ?_
  cases hpq with
  | int i => exact return_ rfl
  | float x => exact return_ rfl
  | str b =>
    dsimp only
    split
    · exact return_ rfl
    · exact mismatch _ hrs
  | _ => exact mismatch _ hrs

namespace Ends

variable {v w : Vm} {cls cls' : Ref} {args args' : List Ref} {f : InitFn}

/-- A new object of a class that traces it. -/
theorem make (hvw : v.Related ρ w) (hcls : ρ cls cls') (hc : v.heap.Constructs cls f)
    {p p' : Payload} (hp : p.Related ρ p') (hmark : ∀ m, p.markFn? = some m → f.mark? = some m) :
    Ends ρ v (fun σ _ => Renamed σ) (Vm.alloc cls p v) (Vm.alloc cls' p' w) := by
  refine (Ends.alloc hvw hcls hp (hc.admits hmark fun x hx => ?_)).mono fun _ _ _ _ hR => hR.1
  obtain ⟨y, -, hxy⟩ := forall₂_mem_left hp.refs hx
  exact hvw.heap.live_left hxy

theorem makeValue (hvw : v.Related ρ w) (hcls : ρ cls cls') (hc : v.heap.Constructs cls f)
    {p p' : Payload} (hp : p.Related ρ p') (hmark : ∀ m, p.markFn? = some m → f.mark? = some m) :
    Ends ρ v Reply.Related ((Vm.alloc cls p >>= fun r => pure (.value r)) v)
      ((Vm.alloc cls' p' >>= fun r => pure (.value r)) w) :=
  (make hvw hcls hc hp hmark).andThen fun _ _ _ _ hrs => Leads.return_ fun _ => .value hrs

theorem constructObject (hvw : v.Related ρ w) (hcls : ρ cls cls')
    (hc : v.heap.Constructs cls .object) (hargs : List.Forall₂ ρ args args') :
    Ends ρ v Reply.Related (Vm.constructObject cls args v) (Vm.constructObject cls' args' w) := by
  unfold Vm.constructObject
  refine (Observes.cls hcls).ends hvw fun c d _ hcd => ?_
  dsimp only
  rw [hcd.size]
  split
  · exact Leads.fails .crashed v w hvw
  refine Observes.nil.ends hvw fun x y _ hxy => ?_
  have hslots : List.Forall₂ ρ (Array.replicate d.size x).toList (Array.replicate d.size y).toList := by
    rw [Array.toList_replicate, Array.toList_replicate]
    exact forall₂_replicate hxy _
  refine (make hvw hcls hc (.object hslots) fun _ h => h).andThen ?_
  intro σ hσ obj obj' hobj
  refine (Observes.lookupMethod (hσ _ _ hcls) "init").andThen fun m n hmn => ?_
  cases hmn with
  | some hinit =>
    intro v' w' hvw'
    refine (Leads.bindMethod hinit hobj v' w' hvw').bind ?_
    intro τ hτ b b' v'' w'' hvw'' hb
    refine .ok le_rfl hvw'' (.refl _) (.fill (hτ _ _ hobj) hb.1 hb.2 ?_)
    exact List.Forall₂.imp (hσ.trans hτ) hargs
  | none =>
    rw [hcd.name, hargs.length_eq]
    cases hargs with
    | nil => exact Leads.return_ fun _ => .value hobj
    | cons _ _ => exact Leads.raise nofun

theorem runInit (hvw : v.Related ρ w) (hcls : ρ cls cls') (hc : v.heap.Constructs cls f)
    (hargs : List.Forall₂ ρ args args') :
    Ends ρ v Reply.Related (Vm.runInit f cls args v) (Vm.runInit f cls' args' w) := by
  have hall := hargs
  cases f with
  | object => exact constructObject hvw hcls hc hargs
  | cls => exact (Respects.classNewFrom hargs).value v w hvw
  | nil =>
    cases hargs with
    | nil => exact Observes.nil.respects.value v w hvw
    | cons _ _ => exact Leads.arity _ _ hall v w hvw
  | bool =>
    rcases hargs with _ | ⟨hx, _ | _⟩
    · exact (Observes.bool false).respects.value v w hvw
    · refine (Observes.truthy hx).ends hvw fun b _ _ heq => ?_
      exact heq ▸ (Observes.bool b).respects.value v w hvw
    · exact Leads.arity _ _ hall v w hvw
  | int =>
    rcases hargs with _ | ⟨hx, _ | _⟩
    · exact makeValue hvw hcls hc (.int 0) nofun
    · refine (Observes.toInt hx).ends hvw fun i _ _ heq => ?_
      exact heq ▸ makeValue hvw hcls hc (.int i) nofun
    · exact Leads.arity _ _ hall v w hvw
  | float =>
    rcases hargs with _ | ⟨hx, _ | _⟩
    · exact makeValue hvw hcls hc (.float 0.0) nofun
    · refine (Observes.toFloat hx).ends hvw fun x _ _ heq => ?_
      exact heq ▸ makeValue hvw hcls hc (.float x) nofun
    · exact Leads.arity _ _ hall v w hvw
  | str =>
    rcases hargs with _ | ⟨hx, _ | _⟩
    · exact (Respects.newStr "").value v w hvw
    · refine (Observes.payload hx).ends hvw fun p q _ hpq => ?_
      cases hpq with
      | str b => exact Leads.return_ (fun _ => .value hx) v w hvw
      | _ => exact (Respects.strOf hx).value v w hvw
    · exact Leads.arity _ _ hall v w hvw
  | array => exact makeValue hvw hcls hc (.array hargs) fun _ h => h
  | hash =>
    cases hargs with
    | nil => exact makeValue hvw hcls hc (.hash .nil) fun _ h => h
    | cons _ _ => exact Leads.arity _ _ hall v w hvw
  | error =>
    rcases hargs with _ | ⟨hx, _ | ⟨hy, _ | _⟩⟩
    · exact Leads.arity _ _ hall v w hvw
    · refine (Observes.textOf hx).andEq (fun text => ?_) v w hvw
      exact (Respects.newError text .none).value
    · refine (Observes.textOf hx).andEq (fun text => ?_) v w hvw
      exact (Respects.newError text (.some hy)).value
    · exact Leads.arity _ _ hall v w hvw
  | refuse =>
    refine (Observes.cls hcls).andThen (fun c d hcd => ?_) v w hvw
    rw [hcd.name]
    exact Leads.raise nofun
  | arguments => exact (Respects.newArray hargs).value v w hvw

end Ends

/-! ## Calls -/

namespace Leads

theorem construct (hrs : ρ r s) {args args' : List Ref} (hargs : List.Forall₂ ρ args args') :
    Leads ρ (Vm.construct r args) (Vm.construct s args') Reply.Related := by
  intro v w hvw
  unfold Vm.construct
  refine Observes.ends (R := Eq) (.ofHeap fun _ _ h => h.requireSlot .init _ hrs) hvw ?_
  rintro f _ hf rfl
  exact Ends.runInit hvw hrs (hvw.heap.left.constructs (Action.ofHeap_eq_ok hf)) hargs

end Leads

theorem Heap.payload_eq_ok {h : Heap} {p : Payload} (hp : h.payload r = .ok p) :
    ∃ k, h.get r = .ok ⟨k, p⟩ := by
  unfold Heap.payload at hp
  cases hg : h.get r with
  | error e => rw [hg] at hp; cases hp
  | ok o => rw [hg] at hp; cases hp; exact ⟨o.cls, rfl⟩

/-- The object is the native function that collects garbage. -/
def Heap.IsCollect (h : Heap) (r : Ref) : Prop :=
  ∃ k m, h.get r = .ok ⟨k, .method m⟩ ∧ m.body = .native .collect

namespace Ends

variable {v w : Vm}

theorem callMethod (hvw : v.Related ρ w) (hrs : ρ r s) (hne : ¬ v.heap.IsCollect r)
    {args args' : List Ref} (hargs : List.Forall₂ ρ args args') :
    Ends ρ v Reply.Related (Vm.callMethod r args v) (Vm.callMethod s args' w) := by
  unfold Vm.callMethod
  refine (Observes.payload hrs).ends hvw fun p q hp hpq => ?_
  obtain ⟨k, hget⟩ := Heap.payload_eq_ok (Action.ofHeap_eq_ok hp)
  cases hpq with
  | @method m n hmn =>
    obtain ⟨name, body, receiver⟩ := m
    obtain ⟨name', body', receiver'⟩ := n
    obtain ⟨-, hbody, hreceiver⟩ := hmn
    have hloop : Leads ρ
        (Vm.enterLoop r args >>= fun x => pure (.entered x.1 x.2))
        (Vm.enterLoop s args' >>= fun x => pure (.entered x.1 x.2)) Reply.Related :=
      (Respects.enterLoop hrs hargs).bind fun σ hσ x _ heq =>
        heq ▸ Leads.return_ fun _ => .entered x.1 x.2
    cases hbody with
    | native f =>
      refine Leads.runNative f ?_ (List.rel_append (optionRel_toList hreceiver) hargs) v w hvw
      rintro rfl
      exact hne ⟨k, _, hget, rfl⟩
    | bytecode _ _ => exact hloop v w hvw
    | closure _ _ _ => exact hloop v w hvw
  | _ => exact Leads.mismatch _ hrs v w hvw

/-- Any call, given what a call of a method does. -/
theorem callThrough (hvw : v.Related ρ w) (hrs : ρ r s) {args args' : List Ref}
    (hargs : List.Forall₂ ρ args args')
    (hmethod : Vm.require .call Slots.call r v = .ok .method v →
      Ends ρ v Reply.Related (Vm.callMethod r args v) (Vm.callMethod s args' w)) :
    Ends ρ v Reply.Related (Vm.call r args v) (Vm.call s args' w) := by
  unfold Vm.call
  refine (Observes.require .call Slots.call hrs).ends hvw ?_
  rintro f _ hf rfl
  cases f with
  | method => exact hmethod hf
  | cls => exact Leads.construct hrs hargs v w hvw
  | arguments => exact (Respects.newArray hargs).value v w hvw

theorem call (hvw : v.Related ρ w) (hrs : ρ r s) (hne : ¬ v.heap.IsCollect r)
    {args args' : List Ref} (hargs : List.Forall₂ ρ args args') :
    Ends ρ v Reply.Related (Vm.call r args v) (Vm.call s args' w) :=
  callThrough hvw hrs hargs fun _ => callMethod hvw hrs hne hargs

end Ends
end ObjectMachine
