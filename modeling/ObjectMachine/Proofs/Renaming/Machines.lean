import ObjectMachine.Machine
import ObjectMachine.Proofs.Renaming.Collections

/-!
# ObjectMachine.Proofs.Renaming.Machines

Two machines that are the same up to the names of objects stay so while each of them steps, however
often and wherever the collector runs in either.

An object that a constructor fills is named by nothing but the waiting continuation. It survives
because the bound method that fills it is a temporary root.

* `Heap.Holds` — each waiting constructor has such a root.
* `Machine.Related`, `Outcome.Related` — machines and outcomes that agree up to a renaming.
* `Machine.Related.step` — a step, unless it calls the native function that collects garbage.
* `Machine.Related.step_self` — that step too, of a machine beside itself.
* `Machine.Related.run` — any number of them.
* `Machine.Related.resume` — the answer to a request.
-/

namespace ObjectMachine

variable {ρ : Renaming}

/-! ## Waiting constructors -/

/-- The object of each waiting constructor is held by a temporary root: the roots of the inner ones
come first. -/
def Heap.Holds (h : Heap) : List Kont → List Ref → Prop
  | [], _ => True
  | .fill _ :: _, [] => False
  | .fill obj :: konts, t :: temps => h.Binds t obj ∧ h.Holds konts temps
  | .loop _ _ :: konts, temps => h.Holds konts temps
  | .operands _ :: konts, temps => h.Holds konts temps
  | .attempt :: konts, temps => h.Holds konts temps
  | .guard :: konts, temps => h.Holds konts temps

theorem Heap.Holds.imp {h h' : Heap} {konts : List Kont} {temps : List Ref}
    (hh : h.Holds konts temps) (hm : ∀ t ∈ temps, ∀ obj, h.Binds t obj → h'.Binds t obj) :
    h'.Holds konts temps := by
  induction konts generalizing temps with
  | nil => trivial
  | cons k konts ih =>
    cases k with
    | fill obj =>
      cases temps with
      | nil => exact hh
      | cons t temps =>
        refine ⟨hm t List.mem_cons_self obj hh.1, ih hh.2 fun t' ht' => ?_⟩
        exact hm t' (List.mem_cons_of_mem _ ht')
    | _ => exact ih hh hm

theorem Heap.Holds.keeps {v v' : Vm} {konts : List Kont} (h : v.heap.Holds konts v.temps)
    (hk : v.Keeps v') : v'.heap.Holds konts v'.temps := by
  rw [hk.temps]
  refine h.imp fun t _ obj => ?_
  rintro ⟨k, n, hget, hobj⟩
  exact ⟨k, n, hk.methods t k n hget, hobj⟩

theorem Heap.Remains.binds {h h₁ : Heap} (hr : h.Remains h₁) {t obj : Ref}
    (ht : h₁.contains t = true) (hb : h.Binds t obj) : h₁.Binds t obj := by
  obtain ⟨k, n, hget, hobj⟩ := hb
  obtain ⟨o, ho⟩ := contains_iff.mp ht
  have := hr.get t o ho
  rw [hget] at this
  cases this
  exact ⟨k, n, ho, hobj⟩

theorem Heap.Sound.binds_live {h : Heap} (hs : h.Sound) {t obj : Ref} (hb : h.Binds t obj) :
    h.contains obj = true := by
  obtain ⟨k, n, hget, hobj⟩ := hb
  refine (hs.closed t _ hget).2 obj ?_
  simp [Payload.refs, Payload.markFn?, MarkFn.targets, hobj]

/-- What stands for a bound method binds what stands for its receiver. -/
theorem Heap.Related.binds {h h' : Heap} (hr : h.Related ρ h') {t t' obj obj' : Ref} (ht : ρ t t')
    (hobj : ρ obj obj') (hb : h.Binds t obj) : h'.Binds t' obj' := by
  obtain ⟨k, n, hget, hn⟩ := hb
  obtain ⟨o, ⟨k', p⟩, ho, hp, hop⟩ := hr.get ht
  rw [hget] at ho
  cases ho
  obtain ⟨-, hpay⟩ := hop
  cases hpay with
  | @method _ n' hnn =>
    have hrec := hnn.receiver
    rw [hn] at hrec
    cases hn' : n'.receiver with
    | none => rw [hn'] at hrec; cases hrec
    | some x =>
      rw [hn'] at hrec
      cases hrec with
      | some hx =>
        obtain rfl := hr.unique.2 hx hobj
        exact ⟨k', n', hp, hn'⟩

/-! ## Actions at their states -/

theorem Machine.continueWith_eq {α : Type} {a b : Action α} {v v₁ : Vm} (h : a v = b v₁)
    (konts : List Kont) (f : α → Vm → Machine) :
    continueWith a v konts f = continueWith b v₁ konts f := by
  unfold continueWith
  rw [h]

theorem Vm.stepLoop_after (floor : Nat) {v v₁ : Vm} (h : Vm.tick v = .ok () v₁) :
    Vm.stepLoop floor v = Vm.performIn floor v₁ := by
  unfold Vm.stepLoop
  rw [Action.bind_run, h]

/-- A call of the native function that collects garbage: either it has arguments and fails, or the
collector runs. -/
theorem Vm.callMethod_collect {v : Vm} (hs : v.heap.Sound)
    (hlive : ∀ r ∈ v.roots, v.heap.contains r = true) {r : Ref} (hc : v.heap.IsCollect r)
    (args : List Ref) :
    (∃ n, Vm.callMethod r args v = .error (.raised (.arity Native.collect.name 0 n)) v) ∨
    ∃ n v₁, v.Swept v₁ ∧
      Vm.callMethod r args v = (Vm.newLength n >>= fun r => pure (.value r) : Action Reply) v₁ := by
  obtain ⟨k, ⟨name, body, receiver⟩, hget, rfl⟩ := hc
  have hpay : Vm.payload r v = .ok (.method ⟨name, .native .collect, receiver⟩) v := by
    unfold Vm.payload Action.ofHeap Heap.payload
    dsimp only
    rw [hget]
  unfold Vm.callMethod
  rw [Action.bind_run, hpay]
  dsimp only
  cases receiver.toList ++ args with
  | cons x xs => exact .inl ⟨_, rfl⟩
  | nil =>
    obtain ⟨n, v₁, hrun, hsw⟩ := Vm.collect_swept hs hlive
    refine .inr ⟨n, v₁, hsw, ?_⟩
    show (Vm.collect >>= fun n => Vm.newLength n >>= fun r => pure (.value r) : Action Reply) v = _
    rw [Action.bind_run, hrun]

/-! ## Machines -/

inductive Kont.Related (ρ : Renaming) : Kont → Kont → Prop where
  | loop (floor base : Nat) : Kont.Related ρ (.loop floor base) (.loop floor base)
  | operands (n : Nat) : Kont.Related ρ (.operands n) (.operands n)
  | fill {obj obj' : Ref} : ρ obj obj' → Kont.Related ρ (.fill obj) (.fill obj')
  | attempt : Kont.Related ρ .attempt .attempt
  | guard : Kont.Related ρ .guard .guard

theorem Kont.Related.mono {σ : Renaming} {k k' : Kont} (h : k.Related ρ k') (hσ : ρ ≤ σ) :
    k.Related σ k' := by
  cases h with
  | fill h => exact .fill (hσ _ _ h)
  | _ => constructor

inductive Mode.Related (ρ : Renaming) : Mode → Mode → Prop where
  | running : Mode.Related ρ .running .running
  | calling {r s : Ref} {args args' : List Ref} :
      ρ r s → List.Forall₂ ρ args args' → Mode.Related ρ (.calling r args) (.calling s args')
  | constructing {r s : Ref} {args args' : List Ref} : ρ r s → List.Forall₂ ρ args args' →
      Mode.Related ρ (.constructing r args) (.constructing s args')
  | returning {r s : Ref} : ρ r s → Mode.Related ρ (.returning r) (.returning s)
  | raising {e f : Error} : e.Related ρ f → Mode.Related ρ (.raising e) (.raising f)
  | waiting (request : Request) : Mode.Related ρ (.waiting request) (.waiting request)

/-- Tasks that are the same up to a renaming, with what waits in them. -/
structure Resting (ρ : Renaming) (v : Vm) (ks : List Kont) (w : Vm) (ks' : List Kont) : Prop where
  vm : v.Related ρ w
  konts : List.Forall₂ (Kont.Related ρ) ks ks'
  holds : v.heap.Holds ks v.temps

structure Machine.Related (ρ : Renaming) (m n : Machine) : Prop where
  resting : Resting ρ m.vm m.konts n.vm n.konts
  mode : m.mode.Related ρ n.mode

/-- Outcomes that are the same up to some renaming. -/
inductive Outcome.Related : Outcome → Outcome → Prop where
  | next {ρ : Renaming} {m n : Machine} : m.Related ρ n → Outcome.Related (.next m) (.next n)
  | value {ρ : Renaming} {v w : Vm} {r s : Ref} : v.Related ρ w → ρ r s →
      Outcome.Related (.done v (.ok r)) (.done w (.ok s))
  | error {ρ : Renaming} {v w : Vm} {e f : Error} : v.Related ρ w → e.Related ρ f →
      Outcome.Related (.done v (.error e)) (.done w (.error f))
  | blocked {ρ : Renaming} {m n : Machine} (request : Request) : m.Related ρ n →
      Outcome.Related (.blocked m request) (.blocked n request)
  | fatal {ρ : Renaming} {v w : Vm} {f g : Fatal} : v.Related ρ w → f.Related ρ g →
      Outcome.Related (.fatal v f) (.fatal w g)
  | crashed {ρ : Renaming} {v w : Vm} : v.Related ρ w →
      Outcome.Related (.crashed v) (.crashed w)

namespace Resting

variable {v w v₁ w₁ : Vm} {konts konts' : List Kont}

theorem keeps {σ : Renaming} {v' w' : Vm} (h : Resting ρ v konts w konts') (hσ : ρ ≤ σ)
    (hvw : v'.Related σ w') (hk : v.Keeps v') : Resting σ v' konts w' konts' :=
  ⟨hvw, List.Forall₂.imp (fun _ _ hkk => hkk.mono hσ) h.konts, h.holds.keeps hk⟩

/-- The objects of the waiting constructors survive a collection of what nothing holds. -/
theorem survivors {h h' h₁ h₁' : Heap} (hr : h.Related ρ h') (hl : h.Remains h₁)
    (hr' : h'.Remains h₁') (hs : h₁.Sound) (hs' : h₁'.Sound)
    (hkonts : List.Forall₂ (Kont.Related ρ) konts konts') {temps temps' : List Ref}
    (htemps : List.Forall₂ ρ temps temps') (hlive : ∀ t ∈ temps, h₁.contains t = true)
    (hlive' : ∀ t ∈ temps', h₁'.contains t = true) (hholds : h.Holds konts temps) :
    List.Forall₂ (Kont.Related (Heap.survivors ρ h₁ h₁')) konts konts' := by
  induction hkonts generalizing temps temps' with
  | nil => exact .nil
  | cons hk _ ih =>
    cases hk with
    | fill hobj =>
      cases htemps with
      | nil => exact hholds.elim
      | cons ht htemps =>
        have hleft := hl.binds (hlive _ List.mem_cons_self) hholds.1
        have hright := hr'.binds (hlive' _ List.mem_cons_self) (hr.binds ht hobj hholds.1)
        refine .cons (.fill ⟨hobj, hs.binds_live hleft, hs'.binds_live hright⟩) ?_
        exact ih htemps (fun t h => hlive t (List.mem_cons_of_mem _ h))
          (fun t h => hlive' t (List.mem_cons_of_mem _ h)) hholds.2
    | _ => exact .cons (by constructor) (ih htemps hlive hlive' hholds)

theorem swept (h : Resting ρ v konts w konts') (hv : v.Swept v₁) (hw : w.Swept w₁) :
    Resting (Heap.survivors ρ v₁.heap w₁.heap) v₁ konts w₁ konts' := by
  have hlive : ∀ t ∈ v.temps, v₁.heap.contains t = true :=
    fun t ht => hv.live t (Vm.mem_roots_temps ht)
  have hlive' : ∀ t ∈ w.temps, w₁.heap.contains t = true :=
    fun t ht => hw.live t (Vm.mem_roots_temps ht)
  refine ⟨h.vm.swept hv hw, ?_, ?_⟩
  · exact survivors h.vm.heap hv.remains hw.remains hv.sound hw.sound h.konts h.vm.temps hlive
      hlive' h.holds
  · have htemps : v₁.temps = v.temps := by rw [hv.state]
    rw [htemps]
    exact h.holds.imp fun t ht obj => hv.remains.binds (hlive t ht)

theorem next {m m' : Mode} (h : Resting ρ v konts w konts') (hm : m.Related ρ m') :
    Outcome.Related (.next ⟨v, konts, m⟩) (.next ⟨w, konts', m'⟩) :=
  .next ⟨h, hm⟩

/-- Both sides go on with what an action answers, or both end in the same way. -/
theorem continueWith {α β : Type} {a : Action α} {b : Action β}
    {R : Renaming → Vm → α → β → Prop} {f : α → Vm → Machine} {g : β → Vm → Machine}
    (h : Resting ρ v konts w konts') (hab : Ends ρ v R (a v) (b w))
    (hfg : ∀ σ, ρ ≤ σ → ∀ x y v' w', Resting σ v' konts w' konts' → R σ v' x y →
      (f x v').Related σ (g y w')) :
    Outcome.Related (Machine.continueWith a v konts f) (Machine.continueWith b w konts' g) := by
  unfold Machine.continueWith
  generalize a v = x, b w = y at hab ⊢
  cases hab with
  | ok hσ hvw hk hR => exact .next (hfg _ hσ _ _ _ _ (h.keeps hσ hvw hk) hR)
  | error hσ hvw hk he =>
    cases he with
    | raised he => exact (h.keeps hσ hvw hk).next (.raising he)
    | fatal he => exact .fatal hvw he
    | crashed => exact .crashed hvw

theorem continueValue {a b : Action Ref} (h : Resting ρ v konts w konts')
    (hab : Respects ρ a b Renamed) :
    Outcome.Related
      (Machine.continueWith a v konts fun r vm => ⟨vm, konts, .returning r⟩)
      (Machine.continueWith b w konts' fun r vm => ⟨vm, konts', .returning r⟩) :=
  h.continueWith (hab v w h.vm) fun _ _ _ _ _ _ h' hrs => ⟨h', .returning hrs⟩

/-- Without the innermost continuation, unless it is a constructor. -/
theorem tail {k k' : Kont} (h : Resting ρ v (k :: konts) w (k' :: konts'))
    (hk : v.heap.Holds (k :: konts) v.temps = v.heap.Holds konts v.temps) :
    Resting ρ v konts w konts' :=
  ⟨h.vm, (List.forall₂_cons.mp h.konts).2, hk ▸ h.holds⟩

/-- Without a constructor and its temporary root. -/
theorem filled {obj obj' : Ref} (h : Resting ρ v (.fill obj :: konts) w (.fill obj' :: konts')) :
    Resting ρ { v with temps := v.temps.tail } konts { w with temps := w.temps.tail } konts' := by
  have hholds := h.holds
  refine ⟨{ h.vm with temps := ?_ }, (List.forall₂_cons.mp h.konts).2, ?_⟩
  · rw [← List.drop_one, ← List.drop_one]
    exact List.forall₂_drop 1 h.vm.temps
  · cases ht : v.temps with
    | nil => rw [ht] at hholds; exact hholds.elim
    | cons t ts => rw [ht] at hholds; exact hholds.2

theorem ofReply (h : Resting ρ v konts w konts') {x y : Reply} (hxy : x.Related ρ v y) :
    (Machine.ofReply konts x v).Related ρ (Machine.ofReply konts' y w) := by
  cases hxy with
  | value hrs => exact ⟨h, .returning hrs⟩
  | call hrs hargs => exact ⟨h, .calling hrs hargs⟩
  | attempt hrs hargs => exact ⟨{ h with konts := .cons .attempt h.konts }, .calling hrs hargs⟩
  | construct hrs hargs => exact ⟨h, .constructing hrs hargs⟩
  | fill hobj hinit hb hargs =>
    exact ⟨⟨{ h.vm with temps := .cons hinit h.vm.temps }, .cons (.fill hobj) h.konts, hb, h.holds⟩,
      .calling hinit hargs⟩
  | entered floor base =>
    exact ⟨{ h with konts := .cons (.loop floor base) h.konts }, .running⟩
  | wait request => exact ⟨h, .waiting request⟩

/-! ## Steps -/

theorem stepRunning (h : Resting ρ v konts w konts') :
    Outcome.Related (Machine.stepRunning v konts) (Machine.stepRunning w konts') := by
  obtain ⟨hlive, hlive'⟩ := h.vm.roots_live
  cases h.konts with
  | nil => exact .fatal h.vm (.same rfl)
  | cons hk hks =>
    cases hk with
    | loop floor base =>
      -- the collector may run on either side, before the same instruction
      obtain ⟨v₁, hv, hsw⟩ := Vm.tick_swept h.vm.heap.left hlive
      obtain ⟨w₁, hw, hsw'⟩ := Vm.tick_swept h.vm.heap.right hlive'
      have h₁ := h.swept hsw hsw'
      unfold Machine.stepRunning
      dsimp only
      rw [Machine.continueWith_eq (Vm.stepLoop_after floor hv),
        Machine.continueWith_eq (Vm.stepLoop_after floor hw)]
      refine h₁.continueWith (Respects.performIn floor v₁ w₁ h₁.vm) ?_
      intro σ _ x y v' w' h' hxy
      cases hxy with
      | next => exact ⟨h', .running⟩
      | leave hrs => exact ⟨h'.tail rfl, .returning hrs⟩
      | call hrs hargs =>
        exact ⟨{ h' with konts := .cons (.operands _) h'.konts }, .calling hrs hargs⟩
      | wait request n =>
        exact ⟨{ h' with konts := .cons (.operands _) h'.konts }, .waiting request⟩
    | _ => exact .fatal h.vm (.same rfl)

theorem stepReturning (h : Resting ρ v konts w konts') {r s : Ref} (hrs : ρ r s) :
    Outcome.Related (Machine.stepReturning r v konts) (Machine.stepReturning s w konts') := by
  cases h.konts with
  | nil => exact .value h.vm hrs
  | cons hk _ =>
    cases hk with
    | loop floor base => exact .fatal h.vm (.same rfl)
    | operands n =>
      have h' := h.tail rfl
      refine h'.continueWith (Respects.replace n hrs v w h.vm) ?_
      exact fun _ _ _ _ _ _ h'' _ => ⟨h'', .running⟩
    | fill hobj => exact h.filled.next (.returning hobj)
    | attempt =>
      refine (h.tail rfl).continueValue ?_
      exact (Observes.bool true).andThen fun x y hxy =>
        Respects.newArray (.cons hxy (.cons hrs .nil))
    | guard => exact (h.tail rfl).next (.returning hrs)

theorem unwind {e f : Error} (hef : e.Related ρ f) (floor base : Nat) :
    Respects ρ (Machine.unwind e floor base) (Machine.unwind f floor base) Renamed := by
  unfold Machine.unwind
  refine (Respects.raisedValue hef).bind fun σ _ x y hxy => ?_
  refine Respects.bind (R := Anything) ?_ fun τ hτ _ _ _ => ?_
  · unfold Machine.traceUnwinding
    refine Leads.get_bind fun v w hvw => ?_
    rw [hvw.config.trace]
    split
    · exact (Observes.display hxy).andEq fun text => Respects.trace _ _ _ _
    · exact Respects.return_ trivial
  · refine Respects.bind (R := Anything) ?_ fun υ hυ _ _ _ =>
      Respects.return_ (hυ _ _ (hτ _ _ hxy))
    refine Respects.changing (fun v w hvw => ?_) fun _ => .of_eq rfl rfl
    refine { hvw with stack := ?_, frames := ?_, loops := congrArg (· - 1) hvw.loops }
    · rw [Array.toList_shrink, Array.toList_shrink]
      exact List.forall₂_take _ hvw.stack
    · rw [Array.toList_shrink, Array.toList_shrink]
      exact List.forall₂_take _ hvw.frames

theorem continueFailing {a b : Action Ref} (h : Resting ρ v konts w konts')
    (hab : Respects ρ a b Renamed) :
    Outcome.Related
      (Machine.continueWith a v konts fun r vm => ⟨vm, konts, .raising (.panic r)⟩)
      (Machine.continueWith b w konts' fun r vm => ⟨vm, konts', .raising (.panic r)⟩) :=
  h.continueWith (hab v w h.vm) fun _ _ _ _ _ _ h' hrs => ⟨h', .raising (.panic hrs)⟩

theorem stepRaising (h : Resting ρ v konts w konts') {e f : Error} (hef : e.Related ρ f) :
    Outcome.Related (Machine.stepRaising e v konts) (Machine.stepRaising f w konts') := by
  cases h.konts with
  | nil => exact .error h.vm hef
  | cons hk _ =>
    cases hk with
    | loop floor base => exact (h.tail rfl).continueFailing (unwind hef floor base)
    | operands n => exact (h.tail rfl).next (.raising hef)
    | fill hobj => exact h.filled.next (.raising hef)
    | attempt =>
      refine (h.tail rfl).continueValue ?_
      refine (Respects.raisedValue hef).bind fun σ _ x y hxy => ?_
      exact (Observes.bool false).andThen fun a b hab =>
        Respects.newArray (.cons hab (.cons hxy .nil))
    | guard => exact (h.tail rfl).continueFailing (Respects.raisedValue hef)

/-- A call of the native function that collects garbage, of a task beside itself. -/
theorem callCollect (h : Resting ρ v konts v konts) {r : Ref} (hrr : ρ r r) {args : List Ref}
    (hargs : List.Forall₂ ρ args args) (hc : v.heap.IsCollect r) :
    Outcome.Related (Machine.continueWith (Vm.call r args) v konts (Machine.ofReply konts))
      (Machine.continueWith (Vm.call r args) v konts (Machine.ofReply konts)) := by
  rcases Vm.callMethod_collect h.vm.heap.left h.vm.roots_live.1 hc args with
    ⟨n, hrun⟩ | ⟨n, v₁, hsw, hrun⟩
  · refine h.continueWith (Ends.callThrough h.vm hrr hargs fun _ => ?_) ?_
    · rw [hrun]
      exact .error le_rfl h.vm (.refl v) (.raised (.same nofun))
    · exact fun _ _ _ _ _ _ h' hxy => h'.ofReply hxy
  · by_cases hm : Vm.require .call Slots.call r v = .ok .method v
    · have hcall : Vm.call r args v =
          (Vm.newLength n >>= fun r => pure (.value r) : Action Reply) v₁ := by
        unfold Vm.call
        rw [Action.bind_run, hm]
        exact hrun
      rw [Machine.continueWith_eq hcall]
      have h₁ := h.swept hsw hsw
      refine h₁.continueWith ((Respects.newLength n).value v₁ v₁ h₁.vm) ?_
      exact fun _ _ _ _ _ _ h' hxy => h'.ofReply hxy
    · refine h.continueWith (Ends.callThrough h.vm hrr hargs fun h => absurd h hm) ?_
      exact fun _ _ _ _ _ _ h' hxy => h'.ofReply hxy

end Resting

namespace Machine

/-- The next step calls the native function that collects garbage. -/
def Collects (m : Machine) : Prop :=
  ∃ callee args, m.mode = .calling callee args ∧ m.vm.heap.IsCollect callee

theorem Related.step {m n : Machine} (h : m.Related ρ n) (hm : ¬ m.Collects) :
    Outcome.Related m.step n.step := by
  obtain ⟨v, konts, mode⟩ := m
  obtain ⟨w, konts', mode'⟩ := n
  obtain ⟨hrest, hmode⟩ := h
  cases hmode with
  | running => exact hrest.stepRunning
  | @calling r s args args' hrs hargs =>
    have hne : ¬ v.heap.IsCollect r := fun hc => hm ⟨r, args, rfl, hc⟩
    refine hrest.continueWith (Ends.call hrest.vm hrs hne hargs) ?_
    exact fun _ _ _ _ _ _ h' hxy => h'.ofReply hxy
  | constructing hrs hargs =>
    refine hrest.continueWith (Leads.construct hrs hargs _ _ hrest.vm) ?_
    exact fun _ _ _ _ _ _ h' hxy => h'.ofReply hxy
  | returning hrs => exact hrest.stepReturning hrs
  | raising hef => exact hrest.stepRaising hef
  | waiting request => exact .blocked request ⟨hrest, .waiting request⟩

theorem Related.step_self {m : Machine} (h : m.Related ρ m) : Outcome.Related m.step m.step := by
  by_cases hm : m.Collects
  · obtain ⟨v, konts, mode⟩ := m
    obtain ⟨r, args, rfl, hc⟩ := hm
    obtain ⟨hrest, hmode⟩ := h
    cases hmode with
    | calling hrr hargs => exact hrest.callCollect hrr hargs hc
  · exact h.step hm

/-- Any number of steps of each machine, none of which asks for a collection. -/
theorem Related.run {m n : Machine} (h : m.Related ρ n) (fuel : Nat)
    (hm : ∀ k m', Machine.run k m = .next m' → ¬ m'.Collects) :
    Outcome.Related (run fuel m) (run fuel n) := by
  induction fuel generalizing ρ m n with
  | zero => exact .next h
  | succ fuel ih =>
    have hstep := h.step (hm 0 m rfl)
    unfold Machine.run
    cases hms : m.step with
    | next m' =>
      rw [hms] at hstep
      generalize n.step = y at hstep ⊢
      cases hstep with
      | next h' =>
        refine ih h' fun k m'' hk => hm (k + 1) m'' ?_
        simpa only [Machine.run, hms] using hk
    | _ =>
      rw [hms] at hstep
      generalize n.step = y at hstep ⊢
      cases hstep <;> constructor <;> assumption

theorem Related.resume {m n : Machine} (h : m.Related ρ n) (a : Answer) :
    Outcome.Related (m.resume a) (n.resume a) := by
  refine h.resting.continueValue ?_
  cases a with
  | spawned t => exact Respects.newTask t
  | sent => exact Observes.nil.respects
  | message p => exact Respects.unpack p
  | joined p => exact Respects.unpack p

end Machine
end ObjectMachine
