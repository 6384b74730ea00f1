import ObjectMachine.Proofs.Classes.Endings

/-!
# ObjectMachine.Proofs.Classes.Instances

Which class the result of a construction has.

A constructor is looked for along the chain of the class that is called. Those of plain instances,
numbers and containers make an instance of this class; those of strings and errors make an instance
of their own class, whatever class is called. Where an `init` method has to run first, the instance
waits below the call, and the call ends with it.

* `Builtin.made` — the class of what the classes of a family make.
* `Vm.construct_made` — what a constructor answers.
* `Machine.step_above` — a step changes the upper continuations only.
* `Session.Building` — what is known of a construction until it is over; every step keeps it.
* `Session.constructed_class` — so it is with every construction of every run.
-/

namespace ObjectMachine

open ObjectMachine.Action

/-- The class of what a class of a family makes. -/
def Builtin.made (b : Builtin) (id : Nat) (cls : Ref) : Ref :=
  if b = .str ∨ b = .error then b.ref id else cls

/-- The families that have instances of made classes are those that are left when strings and
errors, and those whose constructor makes nothing new, are left out. -/
theorem Builtin.heritable_of {b : Builtin} (hunique : b ≠ .nil ∧ b ≠ .bool ∧ b ≠ .cls)
    (hplain : ¬ (b = .str ∨ b = .error)) (hinit : b.slots.init ≠ some .refuse) :
    b.heritable = true := by
  obtain ⟨hnil, hbool, hcls⟩ := hunique
  obtain ⟨hstr, herror⟩ := not_or.mp hplain
  cases b <;> first | rfl | contradiction

/-- An instance of a class of such a family is of such a kind, in whatever later heap. -/
theorem Heap.Classed.heritable_instance {h h' : Heap} (hh : h.Classed) (hh' : h'.Classed)
    {b : Builtin} {r : Ref} {o : Obj} {c : Class} (hfamily : h.Family (some b) o.cls)
    (hb : b.heritable = true) (hc : h.cls o.cls = .ok c) (ho : h'.get r = .ok o) :
    o.payload.family.heritable = true := by
  by_contra hkind
  -- otherwise its class is built in, and so the family
  have hcls := hh'.plain r o ho (Bool.eq_false_iff.mpr hkind)
  have hid : h'.id = h.id := (congrArg Ref.heap hcls).symm.trans (contains_heap (cls_contains hc))
  rw [hcls, hid] at hfamily
  rw [← Option.some.inj (hfamily.unique hh (.builtin o.payload.family))] at hkind
  exact hkind hb

/-- A reply that gives an instance of a class, or one that its `init` has to fill first. -/
def Reply.Gives (h : Heap) (k : Ref) : Reply → Prop
  | .value r => h.classOf r = .ok k
  | .fill obj _ _ => h.classOf obj = .ok k
  | _ => False

/-! ## Constructors -/

namespace Vm

variable {vm vm' : Vm} {k cls : Ref} {args : List Ref} {reply : Reply}

theorem alloc_get (hf : vm.heap.FreeList) {p : Payload} {r : Ref}
    (hrun : alloc k p vm = .ok r vm') : vm'.heap.FreeList ∧ vm'.heap.get r = .ok ⟨k, p⟩ := by
  unfold alloc at hrun
  cases hown : vm.heap.checkOwn k with
  | error e =>
    rw [hown] at hrun
    cases hrun
  | ok _ =>
    rw [hown] at hrun
    cases hrun
    exact ⟨Heap.place_freeList hf _, (Heap.get_place hf _ _).trans (if_pos rfl)⟩

theorem alloc_made (hf : vm.heap.FreeList) {p : Payload} {r : Ref}
    (hrun : alloc k p vm = .ok r vm') : vm'.heap.classOf r = .ok k :=
  Heap.classOf_eq (alloc_get hf hrun).2

theorem value_gives {a : Action Ref}
    (hmade : ∀ r vm', a vm = .ok r vm' → vm'.heap.classOf r = .ok k)
    (hrun : (do return Reply.value (← a)) vm = .ok reply vm') : reply.Gives vm'.heap k := by
  obtain ⟨r, vm₁, ha, hreply⟩ := Action.bind_eq_ok.mp hrun
  obtain ⟨rfl, rfl⟩ := pure_eq_ok.mp hreply
  exact hmade r vm₁ ha

/-- A constructor that reads its arguments and makes one object. -/
theorem reading_gives (hf : vm.heap.FreeList) {α : Type} {a : Action α} [Reads a] {p : α → Payload}
    (hrun : (do
      let x ← a
      return Reply.value (← alloc k (p x))) vm = .ok reply vm') : reply.Gives vm'.heap k := by
  obtain ⟨x, -, hrun⟩ := Reads.bind_eq_ok hrun
  exact value_gives (fun _ _ => alloc_made hf) hrun

/-- A bound method is a new object. -/
theorem bind_keeps (hf : vm.heap.FreeList) {m obj r x : Ref} {o : Obj}
    (ho : vm.heap.get x = .ok o) (hrun : bind m obj vm = .ok r vm') : vm'.heap.get x = .ok o := by
  obtain ⟨p, -, hrun⟩ := Reads.bind_eq_ok hrun
  cases p with
  | method b =>
    dsimp only at hrun
    rw [new_eq] at hrun
    cases hrun
    exact Heap.get_place_of_get hf _ ho
  | _ => cases hrun

theorem constructObject_gives (hf : vm.heap.FreeList)
    (hrun : constructObject cls args vm = .ok reply vm') : reply.Gives vm'.heap cls := by
  obtain ⟨c, -, hrun⟩ := Reads.bind_eq_ok hrun
  by_cases hroom : c.size * slotBytes > maxBytes
  · simp only [if_pos hroom] at hrun
    cases hrun
  simp only [if_neg hroom] at hrun
  obtain ⟨nothing, -, hrun⟩ := Reads.bind_eq_ok hrun
  obtain ⟨obj, vm₁, halloc, hrun⟩ := Action.bind_eq_ok.mp hrun
  obtain ⟨hf₁, hobj⟩ := alloc_get hf halloc
  obtain ⟨found, -, hrun⟩ := Reads.bind_eq_ok hrun
  cases found with
  | some init =>
    obtain ⟨bound, vm₂, hbind, hrun⟩ := Action.bind_eq_ok.mp hrun
    obtain ⟨rfl, rfl⟩ := pure_eq_ok.mp hrun
    exact Heap.classOf_eq (bind_keeps hf₁ hobj hbind)
  | none =>
    dsimp only at hrun
    cases hempty : args.isEmpty with
    | true =>
      rw [if_pos hempty] at hrun
      obtain ⟨rfl, rfl⟩ := pure_eq_ok.mp hrun
      exact Heap.classOf_eq hobj
    | false =>
      rw [if_neg (by simp [hempty])] at hrun
      cases hrun

/-- Some classes have no instances but those that the system makes. -/
theorem runInit_refuses : runInit .refuse cls args vm ≠ .ok reply vm' := by
  intro hrun
  obtain ⟨c, -, hrun⟩ := Reads.bind_eq_ok hrun
  cases hrun

/-- What the constructor of a family answers. Nil, truth values and classes are left out. -/
theorem runInit_gives (hclassed : vm.heap.Classed) {b : Builtin} {f : InitFn}
    (hinit : b.slots.init = some f) (hb : b ≠ .nil ∧ b ≠ .bool ∧ b ≠ .cls)
    (hrun : runInit f cls args vm = .ok reply vm') :
    reply.Gives vm'.heap (b.made vm.heap.id cls) := by
  have hf := hclassed.freeList
  cases b with
  | nil => exact absurd rfl hb.1
  | bool => exact absurd rfl hb.2.1
  | cls => exact absurd rfl hb.2.2
  | object =>
    cases hinit
    exact constructObject_gives hf hrun
  | int =>
    cases hinit
    rcases args with _ | ⟨v, _ | ⟨w, rest⟩⟩
    · exact value_gives (fun _ _ => alloc_made hf) hrun
    · exact reading_gives hf (p := Payload.int) hrun
    · cases hrun
  | float =>
    cases hinit
    rcases args with _ | ⟨v, _ | ⟨w, rest⟩⟩
    · exact value_gives (fun _ _ => alloc_made hf) hrun
    · exact reading_gives hf (p := Payload.float) hrun
    · cases hrun
  | array =>
    cases hinit
    exact value_gives (fun _ _ => alloc_made hf) hrun
  | hash =>
    cases hinit
    rcases args with _ | ⟨v, rest⟩
    · exact value_gives (fun _ _ => alloc_made hf) hrun
    · cases hrun
  | str =>
    cases hinit
    rcases args with _ | ⟨v, _ | ⟨w, rest⟩⟩
    · exact value_gives (fun _ _ => alloc_made hf) hrun
    · obtain ⟨p, hp, hrun⟩ := Reads.bind_eq_ok hrun
      have hother : (do return Reply.value (← strOf v)) vm = .ok reply vm' →
          reply.Gives vm'.heap (Builtin.str.ref vm.heap.id) := fun hrun =>
        value_gives (fun r vm₁ hrun => by
          obtain ⟨s, -, hrun⟩ := Reads.bind_eq_ok hrun
          exact alloc_made hf hrun) hrun
      cases p with
      | str x =>
        obtain ⟨rfl, rfl⟩ := pure_eq_ok.mp hrun
        obtain ⟨k, hv⟩ := Heap.payload_eq_ok_iff.mp (payload_eq_ok.mp hp).1
        exact (Heap.classOf_eq hv).trans (congrArg _ (hclassed.plain v _ hv rfl))
      | _ => exact hother hrun
    · cases hrun
  | error =>
    cases hinit
    rcases args with _ | ⟨message, _ | ⟨cause, _ | ⟨w, rest⟩⟩⟩
    · cases hrun
    · obtain ⟨text, -, hrun⟩ := Reads.bind_eq_ok hrun
      exact value_gives (fun _ _ => alloc_made hf) hrun
    · obtain ⟨text, -, hrun⟩ := Reads.bind_eq_ok hrun
      exact value_gives (fun _ _ => alloc_made hf) hrun
    · cases hrun
  | _ =>
    cases hinit
    exact absurd hrun runInit_refuses

theorem construct_gives (hclassed : vm.heap.Classed) {b : Builtin}
    (hfamily : vm.heap.Family (some b) cls) (hb : b ≠ .nil ∧ b ≠ .bool ∧ b ≠ .cls)
    (hrun : construct cls args vm = .ok reply vm') :
    reply.Gives vm'.heap (b.made vm.heap.id cls) := by
  obtain ⟨f, hf, hrun⟩ := Reads.bind_eq_ok hrun
  obtain ⟨b', hfamily', hinit⟩ := hclassed.of_init (ofHeap_eq_ok hf)
  obtain rfl : b = b' := Option.some.inj (hfamily.unique hclassed hfamily')
  exact runInit_gives hclassed hinit hb hrun

theorem construct_refuses (hclassed : vm.heap.Classed) {b : Builtin}
    (hfamily : vm.heap.Family (some b) cls) (hb : b.slots.init = some .refuse) :
    construct cls args vm ≠ .ok reply vm' := by
  intro hrun
  obtain ⟨f, hf, hrun⟩ := Reads.bind_eq_ok hrun
  obtain ⟨b', hfamily', hinit⟩ := hclassed.of_init (ofHeap_eq_ok hf)
  obtain rfl : b = b' := Option.some.inj (hfamily.unique hclassed hfamily')
  rw [hb] at hinit
  cases hinit
  exact runInit_refuses hrun

/-- Calling a class constructs. -/
theorem call_class (hclassed : vm.heap.Classed) {c : Class} (hc : vm.heap.cls cls = .ok c)
    (args : List Ref) : call cls args vm = construct cls args vm := by
  obtain ⟨k, ho⟩ := Heap.cls_eq_ok.mp hc
  have hfound : vm.heap.requireSlot .call Slots.call k = .ok .cls :=
    (hclassed.objects cls _ ho).requireSlot hclassed (fun _ => rfl) .call rfl
  unfold call
  rw [bind_ok (require_ok ho hfound)]

end Vm

/-! ## Steps above a continuation -/

/-- What waits still waits, or the system has come to its end. -/
def Session.Above (ks : List Kont) : Session → Prop
  | .idle _ => False
  | .active m => ks <:+ m.konts
  | .ended _ _ => True

section Above

variable {ks konts : List Kont} {vm : Vm}

theorem Machine.continueWith_above {α : Type} {a : Action α} {f : α → Vm → Machine}
    (hks : ks <:+ konts) (hf : ∀ x vm, ks <:+ (f x vm).konts) :
    (Session.ofOutcome (continueWith a vm konts f)).Above ks := by
  unfold continueWith
  cases a vm with
  | ok x vm => exact hf x vm
  | error e vm =>
    cases e with
    | raised e => exact hks
    | fatal f => trivial
    | crashed => trivial

theorem Machine.ofReply_above (hks : ks <:+ konts) (reply : Reply) (vm : Vm) :
    ks <:+ (ofReply konts reply vm).konts := by
  cases reply with
  | attempt | fill | entered => exact hks.trans (List.suffix_cons _ _)
  | _ => exact hks

/-- A loop that ends takes itself away, and nothing else. -/
theorem Machine.running_above {k : Kont} (hks : ks <:+ konts) :
    (Session.ofOutcome (stepRunning vm (k :: konts))).Above ks := by
  cases k with
  | loop floor base =>
    have hloop : ks <:+ .loop floor base :: konts := hks.trans (List.suffix_cons _ _)
    refine continueWith_above hloop fun flow vm => ?_
    cases flow with
    | next => exact hloop
    | leave v => exact hks
    | call callee args n => exact hloop.trans (List.suffix_cons _ _)
    | wait request n => exact hloop.trans (List.suffix_cons _ _)
  | _ => trivial

theorem Machine.returning_above {k : Kont} (v : Ref) (hks : ks <:+ konts) :
    (Session.ofOutcome (stepReturning v vm (k :: konts))).Above ks := by
  cases k with
  | loop floor base => trivial
  | operands n => exact continueWith_above hks fun _ _ => hks
  | attempt => exact continueWith_above hks fun _ _ => hks
  | fill obj => exact hks
  | guard => exact hks

theorem Machine.raising_above {k : Kont} (e : Error) (hks : ks <:+ konts) :
    (Session.ofOutcome (stepRaising e vm (k :: konts))).Above ks := by
  cases k with
  | loop floor base => exact continueWith_above hks fun _ _ => hks
  | operands n => exact hks
  | attempt => exact continueWith_above hks fun _ _ => hks
  | fill obj => exact hks
  | guard => exact continueWith_above hks fun _ _ => hks

/-- A step takes one continuation away at most. -/
theorem Machine.step_above {m : Machine} {k : Kont} (hm : m.konts = k :: konts)
    (hks : ks <:+ konts) : (Session.ofOutcome m.step).Above ks := by
  have hall : ks <:+ m.konts := hm ▸ hks.trans (List.suffix_cons _ _)
  unfold step
  cases m.mode with
  | running => exact hm ▸ running_above hks
  | calling callee args => exact continueWith_above hall fun r vm => ofReply_above hall r vm
  | constructing cls args => exact continueWith_above hall fun r vm => ofReply_above hall r vm
  | returning v => exact hm ▸ returning_above v hks
  | raising e => exact hm ▸ raising_above e hks
  | waiting request => exact hall

/-- So does every step of a session during a call. -/
theorem Session.Step.above {m : Machine} {t : Session} {k : Kont} (hm : m.konts = k :: konts)
    (hks : ks <:+ konts) (hst : (active m).Step t) : t.Above ks := by
  have hall : ks <:+ m.konts := hm ▸ hks.trans (List.suffix_cons _ _)
  cases hst with
  | step => exact Machine.step_above hm hks
  | answer a _ => exact Machine.continueWith_above hall fun _ _ => hall
  | collectWithin _ =>
    unfold collecting
    cases Vm.collect m.vm with
    | ok n vm => exact hall
    | error e vm => trivial

/-- A constructor that waits ends with its object, or fails. -/
theorem Session.Step.fill {m : Machine} {t : Session} {obj : Ref}
    (hm : m.konts = .fill obj :: konts) (hst : (active m).Step t) :
    t.Above (.fill obj :: konts) ∨ ∃ mode, (mode = .returning obj ∨ ∃ e, mode = .raising e) ∧
      t = .active ⟨{ m.vm with temps := m.vm.temps.tail }, konts, mode⟩ := by
  have hall : .fill obj :: konts <:+ m.konts := hm ▸ List.suffix_rfl
  cases hst with
  | answer a _ => exact .inl (Machine.continueWith_above hall fun _ _ => hall)
  | collectWithin _ =>
    unfold collecting
    cases Vm.collect m.vm with
    | ok n vm => exact .inl hall
    | error e vm => exact .inl trivial
  | step =>
    unfold Machine.step
    cases m.mode with
    | running =>
      rw [hm]
      exact .inl trivial
    | calling callee args =>
      exact .inl (Machine.continueWith_above hall fun r vm => Machine.ofReply_above hall r vm)
    | constructing cls args =>
      exact .inl (Machine.continueWith_above hall fun r vm => Machine.ofReply_above hall r vm)
    | returning v =>
      rw [hm]
      exact .inr ⟨_, .inl rfl, rfl⟩
    | raising e =>
      rw [hm]
      exact .inr ⟨_, .inr ⟨e, rfl⟩, rfl⟩
    | waiting request => exact .inl hall

end Above

/-- The object of a waiting constructor is there. -/
theorem Heap.Holds.fill_live {h : Heap} (hs : h.Sound) {konts : List Kont} {temps : List Ref}
    (hh : h.Holds konts temps) {obj : Ref} (hmem : .fill obj ∈ konts) :
    h.contains obj = true := by
  induction konts generalizing temps with
  | nil => cases hmem
  | cons k konts ih =>
    cases k with
    | fill x =>
      cases temps with
      | nil => exact hh.elim
      | cons t temps =>
        rcases List.mem_cons.mp hmem with heq | hmem
        · cases heq
          exact hs.binds_live hh.1
        · exact ih hh.2 hmem
    | _ => exact ih hh ((List.mem_cons.mp hmem).resolve_left (by rintro ⟨⟩))

/-! ## Constructions -/

/-- The call that `ks` waits for has come to its end: it has a value, or it has failed. -/
def Machine.Over (ks : List Kont) (m : Machine) : Prop :=
  m.konts = ks ∧ ((∃ v, m.mode = .returning v) ∨ ∃ e, m.mode = .raising e)

/-- The steps until the call is over that `ks` waits for. -/
def Session.Calls (ks : List Kont) : Session → Session → Prop :=
  Relation.ReflTransGen fun s t => ∃ m, s = .active m ∧ ¬ m.Over ks ∧ s.Step t

/-- What is known of a construction that began in a state, until it is over. -/
inductive Session.Building (start : Machine) (k : Ref) : Session → Prop where
  | begins : Building start k (.active start)
  /-- An `init` method runs; the instance waits below. -/
  | fills {m : Machine} {obj : Ref} : .fill obj :: start.konts <:+ m.konts →
      m.vm.heap.classOf obj = .ok k → Building start k (.active m)
  | gives {vm : Vm} {r : Ref} : vm.heap.classOf r = .ok k →
      Building start k (.active ⟨vm, start.konts, .returning r⟩)
  | fails {vm : Vm} {e : Error} : Building start k (.active ⟨vm, start.konts, .raising e⟩)
  | ends {vm : Vm} {stop : Stop} : Building start k (.ended vm stop)

namespace Session

variable {start : Machine} {k : Ref} {s t : Session}

/-- An object keeps its class as long as it is there. -/
theorem Step.classOf (hlive : s.Live) (hst : s.Step t) (hopen : t.Open) {r : Ref}
    (hr : t.vm.heap.contains r = true) (hk : s.vm.heap.classOf r = .ok k) :
    t.vm.heap.classOf r = .ok k := by
  cases ho : s.vm.heap.get r with
  | error e =>
    rw [Heap.classOf, ho] at hk
    cases hk
  | ok o =>
    obtain ⟨p, hp, -⟩ := (hst.keeps hlive hopen).classes r o ho hr
    exact (Heap.classOf_eq hp).trans ((Heap.classOf_eq ho).symm.trans hk)

/-- The first step of a construction. -/
theorem Building.first (hclassed : start.vm.heap.Classed) {cls : Ref} {c : Class}
    {args : List Ref} (hc : start.vm.heap.cls cls = .ok c)
    (hmode : start.mode = .constructing cls args ∨ start.mode = .calling cls args)
    (hgives : ∀ reply vm, Vm.construct cls args start.vm = .ok reply vm → reply.Gives vm.heap k)
    (hst : (active start).Step t) : Building start k t := by
  have hstep : start.step = Machine.continueWith (Vm.construct cls args) start.vm start.konts
      (Machine.ofReply start.konts) := by
    unfold Machine.step
    rcases hmode with hmode | hmode
    · rw [hmode]
    · rw [hmode]
      exact Machine.continueWith_eq (Vm.call_class hclassed hc args) _ _
  cases hst with
  | answer a hwait =>
    rw [hwait] at hmode
    rcases hmode with hmode | hmode <;> cases hmode
  | collectWithin hsafe =>
    rcases hsafe with hsafe | ⟨request, hsafe⟩ <;> rw [hsafe] at hmode <;>
      rcases hmode with hmode | hmode <;> cases hmode
  | step =>
    rw [hstep]
    unfold Machine.continueWith
    cases hrun : Vm.construct cls args start.vm with
    | error e vm =>
      cases e with
      | raised e => exact .fails
      | fatal f => exact .ends
      | crashed => exact .ends
    | ok reply vm =>
      have hreply := hgives reply vm hrun
      cases reply with
      | value r => exact .gives hreply
      | fill obj init args => exact .fills List.suffix_rfl hreply
      | _ => exact hreply.elim

/-- Every step of a construction that is not over. -/
theorem Building.step (hfirst : ∀ t, (active start).Step t → Building start k t) {m : Machine}
    (hlive : (active m).Live) (h : Building start k (active m)) (hover : ¬ m.Over start.konts)
    (hst : (active m).Step t) : Building start k t := by
  -- while the instance waits, it is there and keeps its class
  have hwait : ∀ {obj}, m.vm.heap.classOf obj = .ok k → t.Above (.fill obj :: start.konts) →
      Building start k t := by
    intro obj hclass habove
    have hlive' := hlive.step hst
    cases t with
    | idle vm => exact habove.elim
    | ended vm stop => exact .ends
    | active m' =>
      have hmem : .fill obj ∈ m'.konts := habove.subset List.mem_cons_self
      have hobj := Heap.Holds.fill_live hlive'.vm_live.heap (Machine.Live.holds hlive') hmem
      exact .fills habove (hst.classOf hlive trivial hobj hclass)
  cases h with
  | begins => exact hfirst t hst
  | gives _ => exact absurd ⟨rfl, .inl ⟨_, rfl⟩⟩ hover
  | fails => exact absurd ⟨rfl, .inr ⟨_, rfl⟩⟩ hover
  | @fills _ obj hks hclass =>
    obtain ⟨upper, hupper⟩ := hks
    cases upper with
    | cons k₀ upper => exact hwait hclass (hst.above hupper.symm (List.suffix_append _ _))
    | nil =>
      rcases hst.fill hupper.symm with habove | ⟨mode, hmode, rfl⟩
      · exact hwait hclass habove
      · rcases hmode with rfl | ⟨e, rfl⟩
        · exact .gives hclass
        · exact .fails

theorem Building.calls (hfirst : ∀ t, (active start).Step t → Building start k t)
    (hlive : (active start).Live) (hst : (active start).Calls start.konts t) :
    Building start k t := by
  suffices h : t.Live ∧ Building start k t from h.2
  induction hst with
  | refl => exact ⟨hlive, .begins⟩
  | tail _ hst ih =>
    obtain ⟨m, rfl, hover, hst⟩ := hst
    exact ⟨ih.1.step hst, ih.2.step hfirst ih.1 hover hst⟩

/-- At the end of a construction that has a value, the value is what was built. -/
theorem Building.classOf {vm : Vm} {r : Ref}
    (hfirst : ∀ t, (active start).Step t → Building start k t) (hlive : (active start).Live)
    (hmode : start.mode ≠ .returning r)
    (hend : (active start).Calls start.konts (.active ⟨vm, start.konts, .returning r⟩)) :
    vm.heap.classOf r = .ok k := by
  generalize ht : active ⟨vm, start.konts, .returning r⟩ = t at hend
  cases calls hfirst hlive hend with
  | begins => exact absurd (congrArg Machine.mode (Session.active.inj ht)).symm hmode
  | fills hks _ =>
    cases ht
    exact absurd hks.length_le (Nat.not_succ_le_self _)
  | gives hr =>
    cases ht
    exact hr
  | fails => cases ht
  | ends => cases ht

end Session

/-! ## Methods of instances -/

/-- The methods that are found for a class are attributes of its instances, if it is of one of the
kinds that have instances of made classes. -/
theorem Vm.getAttr_method {vm : Vm} (hclassed : vm.heap.Classed) {r m : Ref} {o : Obj} {b : Method}
    (ho : vm.heap.get r = .ok o) (hkind : o.payload.family.heritable = true) {name : String}
    (hfound : vm.heap.lookupMethod o.cls name = .ok (some m))
    (hm : vm.heap.payload m = .ok (.method b)) :
    ∃ bound vm', getAttr r name vm = .ok bound vm' ∧
      vm'.heap.payload bound = .ok (.method { b with receiver := some r }) := by
  have hfamily := hclassed.objects r o ho
  have hfn : vm.heap.requireSlot .getAttr Slots.getAttr o.cls = .ok .object :=
    hfamily.requireSlot hclassed (fun _ => rfl) .getAttr (by
      generalize o.payload.family = k at hkind
      cases k <;> first | rfl | cases hkind)
  have hrun : getAttr r name vm = new .method (.method { b with receiver := some r }) vm := by
    unfold getAttr
    rw [bind_ok (require_ok ho hfn)]
    show getMethod r name vm = _
    unfold getMethod
    rw [bind_ok (ofHeap_run (Heap.classOf_eq ho)), bind_ok (ofHeap_run hfound)]
    exact bind_ok (payload_eq_ok.mpr ⟨hm, rfl⟩)
  exact ⟨_, _, hrun.trans (new_eq vm .method _), Heap.payload_place_self hclassed.freeList _⟩

/-! ## Runs -/

namespace Session

theorem Calls.reaches {fits : Vm → Payload → Prop} {accepts : Vm → Operation → List Ref → Prop}
    {ks : List Kont} {s t : Session} (h : s.Calls ks t) : s.ReachesBy fits accepts t :=
  Relation.ReflTransGen.mono (fun _ _ ⟨_, hs, _, hst⟩ => hs ▸ .active (hs ▸ hst)) _ _ h

/-- In every run in which the embedding program makes no object by hand, and for every class below
`Object` but not below `Nil`, `Bool` or `Class` that is called or instantiated: if the call ends
with a value, then it is an instance of this class, and the methods that the class finds are its
attributes; but a class below `Str` or `Error` gives an instance of `Str` or `Error`. -/
theorem constructed_class {registry : Registry} {config : Config} {heap : Nat} {task : TaskId}
    {m : Machine}
    (hs : (boot registry config heap task).ReachesBy (fun _ _ => False) (fun _ _ _ => True)
      (.active m)) {cls : Ref} {c : Class} {args : List Ref}
    (hmode : m.mode = .constructing cls args ∨ m.mode = .calling cls args)
    (hc : m.vm.heap.cls cls = .ok c)
    (hobject : m.vm.heap.isSubclass cls (Builtin.object.ref m.vm.heap.id) = .ok true)
    (hother : ∀ b : Builtin, b = .nil ∨ b = .bool ∨ b = .cls →
      m.vm.heap.isSubclass cls (b.ref m.vm.heap.id) = .ok false) {vm : Vm} {r : Ref}
    (hend : (active m).Calls m.konts (.active ⟨vm, m.konts, .returning r⟩)) :
    (∀ b : Builtin, b = .str ∨ b = .error →
      m.vm.heap.isSubclass cls (b.ref m.vm.heap.id) = .ok true →
      vm.heap.classOf r = .ok (b.ref m.vm.heap.id)) ∧
    ((∀ b : Builtin, b = .str ∨ b = .error →
      m.vm.heap.isSubclass cls (b.ref m.vm.heap.id) = .ok false) →
      vm.heap.classOf r = .ok cls ∧
        ∀ name f body, vm.heap.lookupMethod cls name = .ok (some f) →
          vm.heap.payload f = .ok (.method body) →
          ∃ bound vm', Vm.getAttr r name vm = .ok bound vm' ∧
            vm'.heap.payload bound = .ok (.method { body with receiver := some r })) := by
  have hlive : (active m).Live := (classed hs).1.live
  have hclassed : m.vm.heap.Classed := (classed hs).2
  have hclassed' : vm.heap.Classed := (classed (hs.trans hend.reaches)).2
  obtain ⟨family, hfamily⟩ := hclassed.classes cls c hc
  obtain ⟨b, rfl⟩ := hfamily.of_isSubclass hclassed hobject
  have hbelow : ∀ k : Builtin,
      m.vm.heap.isSubclass cls (k.ref m.vm.heap.id) = .ok false → b ≠ k := by
    rintro k hk rfl
    rw [hfamily.isSubclass hclassed] at hk
    simp at hk
  have hresult : ∀ {k}, (∀ reply vm, Vm.construct cls args m.vm = .ok reply vm →
      reply.Gives vm.heap k) → vm.heap.classOf r = .ok k := fun hgives =>
    Building.classOf (fun t => Building.first hclassed hc hmode hgives) hlive
      (by rcases hmode with hmode | hmode <;> rw [hmode] <;> rintro ⟨⟩) hend
  have hunique : b ≠ .nil ∧ b ≠ .bool ∧ b ≠ .cls :=
    ⟨hbelow _ (hother _ (.inl rfl)), hbelow _ (hother _ (.inr (.inl rfl))),
      hbelow _ (hother _ (.inr (.inr rfl)))⟩
  have hmade : vm.heap.classOf r = .ok (b.made m.vm.heap.id cls) :=
    hresult fun reply vm => Vm.construct_gives hclassed hfamily hunique
  constructor
  · intro k hk hsub
    obtain rfl : b = k := by
      rw [hfamily.isSubclass hclassed] at hsub
      rcases hk with rfl | rfl <;> cases b <;> first | rfl | cases hsub
    rwa [Builtin.made, if_pos hk] at hmade
  · intro hplain
    have hb : ¬ (b = .str ∨ b = .error) := fun h => hbelow b (hplain b h) rfl
    rw [Builtin.made, if_neg hb] at hmade
    refine ⟨hmade, fun name f body hfound hbody => ?_⟩
    have hinit : b.slots.init ≠ some .refuse := fun h => by
      -- the call would end with an instance of every class
      have hall : ∀ k, vm.heap.classOf r = .ok k := fun k =>
        hresult fun reply vm hrun => absurd hrun (Vm.construct_refuses hclassed hfamily h)
      cases (hall ⟨0, 0, 0⟩).symm.trans (hall ⟨1, 0, 0⟩)
    have hheritable := Builtin.heritable_of hunique hb hinit
    cases ho : vm.heap.get r with
    | error e =>
      rw [Heap.classOf, ho] at hmade
      cases hmade
    | ok o =>
      obtain rfl : o.cls = cls := Except.ok.inj ((Heap.classOf_eq ho).symm.trans hmade)
      have hkind := hclassed.heritable_instance hclassed' hfamily hheritable hc ho
      exact Vm.getAttr_method hclassed' ho hkind hfound hbody

/-- A construction that needs no `init` takes one step. -/
theorem instantiated {fits : Vm → Payload → Prop} {accepts : Vm → Operation → List Ref → Prop}
    {s : Session} {vm vm' : Vm} {cls r : Ref} (hs : s.ReachesBy fits accepts (.idle vm))
    (hcls : vm.heap.contains cls = true)
    (hrun : Vm.construct cls [] vm = .ok (.value r) vm') :
    s.ReachesBy fits accepts (.active ⟨vm, [], .constructing cls []⟩) ∧
      (active ⟨vm, [], .constructing cls []⟩).Calls [] (.active ⟨vm', [], .returning r⟩) := by
  have hlive : ∀ x ∈ (Entry.instantiate cls []).refs, vm.heap.contains x = true := by
    simpa [Entry.refs] using hcls
  refine ⟨.tail hs (.begin (.instantiate cls []) hlive), .single ⟨_, rfl, ?_, .of_next ?_⟩⟩
  · rintro ⟨-, ⟨v, hmode⟩ | ⟨e, hmode⟩⟩ <;> cases hmode
  · exact Machine.continueWith_ok hrun

/-- The state of a task that may be used. -/
def idle? : Session → Option Vm
  | .idle vm => some vm
  | _ => none

theorem follow?_idle {fits : Vm → Payload → Prop} {accepts : Vm → Operation → List Ref → Prop}
    {deeds : List Deed} {s : Session} {vm : Vm}
    (haccepts : ∀ c operands, .operate c operands ∈ deeds → ∀ vm, accepts vm c operands)
    (h : (follow? deeds s).bind idle? = some vm) : s.ReachesBy fits accepts (.idle vm) := by
  obtain ⟨t, ht, hidle⟩ := Option.bind_eq_some_iff.mp h
  cases t with
  | idle vm' =>
    cases hidle
    exact follow?_reaches haccepts ht
  | _ => cases hidle

/-- A class below `Str` and a class below `Array`. -/
def wordsAndRows : List Deed :=
  [.operate (.classNew "Word" 0) [Builtin.str.ref 0],
    .operate (.classNew "Row" 0) [Builtin.array.ref 0]]

/-- Whether a class is below `Object` and, among some others, below one built-in class only. -/
def onlyBelow (h : Heap) (cls : Ref) (k : Builtin) : Bool :=
  [Builtin.object, .nil, .bool, .cls, .str, .error].all fun b =>
    okAnd (h.isSubclass cls (b.ref h.id)) (· == (b == .object || b == k))

theorem onlyBelow_isSubclass {h : Heap} {cls : Ref} {k : Builtin} (hk : onlyBelow h cls k = true)
    {b : Builtin} (hb : b ∈ [Builtin.object, .nil, .bool, .cls, .str, .error]) :
    h.isSubclass cls (b.ref h.id) = .ok (b == .object || b == k) := by
  simp only [onlyBelow, List.all_eq_true, okAnd_eq_true, beq_iff_eq, exists_eq_right] at hk
  exact hk b hb

/-- Calling the class `Word` gives a string, and calling the class `Row` gives a row. -/
theorem constructed_class_word :
    ∃ vm, (boot {} {} 0 ⟨0, 0⟩).ReachesBy (fun _ _ => False) (fun _ _ _ => True) (.idle vm) ∧
      (∃ r vm', Vm.construct ⟨0, 43, 0⟩ [] vm = .ok (.value r) vm' ∧
        vm'.heap.classOf r = .ok (Builtin.str.ref 0)) ∧
      ∃ r vm', Vm.construct ⟨0, 44, 0⟩ [] vm = .ok (.value r) vm' ∧
        vm'.heap.classOf r = .ok ⟨0, 44, 0⟩ := by
  have hrun : ((follow? wordsAndRows (boot {} {} 0 ⟨0, 0⟩)).bind idle?).any (fun vm =>
      vm.heap.id == 0 &&
      okAnd (vm.heap.requireSlot .init Slots.init ⟨0, 43, 0⟩) (· == .str) &&
      okAnd (vm.heap.requireSlot .init Slots.init ⟨0, 44, 0⟩) (· == .array) &&
      okAnd (vm.heap.cls ⟨0, 43, 0⟩) (fun _ => onlyBelow vm.heap ⟨0, 43, 0⟩ .str) &&
      okAnd (vm.heap.cls ⟨0, 44, 0⟩) (fun _ => onlyBelow vm.heap ⟨0, 44, 0⟩ .array)) = true := by
    decide +kernel
  obtain ⟨vm, hidle, hrun⟩ := (Option.any_eq_true _ _).mp hrun
  simp only [Bool.and_eq_true, okAnd_eq_true, beq_iff_eq, exists_eq_right] at hrun
  obtain ⟨⟨⟨⟨hid, hword⟩, hrow⟩, word, hwordClass, hwordBelow⟩, row, hrowClass, hrowBelow⟩ := hrun
  have hreach : (boot {} {} 0 ⟨0, 0⟩).ReachesBy (fun _ _ => False) (fun _ _ _ => True)
      (.idle vm) := by
    obtain ⟨s, hs, hsvm⟩ := Option.bind_eq_some_iff.mp hidle
    cases s with
    | idle vm' =>
      cases hsvm
      exact follow?_reaches (fun _ _ _ _ => trivial) hs
    | _ => cases hsvm
  refine ⟨vm, hreach, ?_, ?_⟩
  · obtain ⟨r, vm', hconstruct⟩ : ∃ r vm', Vm.construct ⟨0, 43, 0⟩ [] vm = .ok (.value r) vm' :=
      ⟨_, _, (Vm.construct_run hword []).trans (bind_ok (Vm.new_eq vm .str _))⟩
    obtain ⟨hstart, hend⟩ := instantiated hreach (Heap.cls_contains hwordClass) hconstruct
    have hclass := (constructed_class hstart (.inl rfl) hwordClass
      (onlyBelow_isSubclass hwordBelow (by simp))
      (by rintro b (rfl | rfl | rfl) <;> exact onlyBelow_isSubclass hwordBelow (by simp)) hend).1
      .str (.inl rfl) (onlyBelow_isSubclass hwordBelow (by simp))
    exact ⟨r, vm', hconstruct, hid ▸ hclass⟩
  · obtain ⟨r, vm', hconstruct⟩ : ∃ r vm', Vm.construct ⟨0, 44, 0⟩ [] vm = .ok (.value r) vm' :=
      ⟨_, _, (Vm.construct_run hrow []).trans
        (bind_ok (Vm.alloc_ok (Heap.cls_contains hrowClass) _))⟩
    obtain ⟨hstart, hend⟩ := instantiated hreach (Heap.cls_contains hrowClass) hconstruct
    have hclass := (constructed_class hstart (.inl rfl) hrowClass
      (onlyBelow_isSubclass hrowBelow (by simp))
      (by rintro b (rfl | rfl | rfl) <;> exact onlyBelow_isSubclass hrowBelow (by simp)) hend).2
      (by rintro b (rfl | rfl) <;> exact onlyBelow_isSubclass hrowBelow (by simp))
    exact ⟨r, vm', hconstruct, hclass.1⟩

end Session
end ObjectMachine
