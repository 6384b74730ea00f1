import ObjectMachine.Proofs.Machine.CallEnds
import ObjectMachine.Proofs.Vm.Rules.Calls

/-!
# ObjectMachine.Proofs.Machine.Crediting

A run in which a frame names another method.

Which method a frame names makes no difference to a step that collects nothing: the step does the
same in both states and leaves the same frame behind, credited with either method.

* `Crediting` — an action that does the same in both states. The primitives are such actions, so
  all are that obey the rules.
* `Machine.step_credit`, `Machine.resume_credit` — so do steps and answers.
* `Outcome.Visits.credit`, `Outcome.Visits.of_credit` — one run follows the other, to the end or to
  the next collection.
-/

namespace ObjectMachine

open ObjectMachine.Action

/-! ## Actions -/

/-- The object `r` is a frame that may be said to run the method `b`. -/
structure Vm.Credible (r b : Ref) (vm : Vm) : Prop where
  freeList : vm.heap.FreeList
  frame : vm.heap.Credible r b

/-- The action does the same if the frame `r` is said to run the method `b`, and leaves it a frame
of which that can be said. -/
def Crediting (r b : Ref) (α : Type) (a : Action α) : Prop :=
  ∀ vm : Vm, vm.Credible r b →
    a (vm.credit r b) = mapState (Vm.credit r b) (a vm) ∧ (final (a vm)).Credible r b

/-- Other contents for objects that are neither frames nor methods. -/
def Payload.Steadfast (g : Payload → Payload) : Prop :=
  ∀ p : Payload, ((∃ f, p = .frame f) ∨ (∃ m, p = .method m) ∨ ∃ f, g p = .frame f) → g p = p

namespace Payload

theorem Sparing.steadfast {g : Payload → Payload} (hg : Sparing g) : Steadfast g := by
  rintro p (⟨f, rfl⟩ | ⟨m, rfl⟩ | ⟨f, hf⟩)
  · exact hg _ (.inl trivial)
  · exact hg _ (.inl trivial)
  · exact hg p (.inr (by rw [hf]; trivial))

theorem steadfast_setTable (t : HashTable) : Steadfast (setTable t) := by
  rintro p (⟨f, rfl⟩ | ⟨m, rfl⟩ | ⟨f, hf⟩)
  · rfl
  · rfl
  · cases p <;> first | rfl | cases hf

theorem credit_of_ne {p : Payload} (hp : ¬ ∃ f, p = .frame f) (b : Ref) : p.credit b = p := by
  cases p with
  | frame f => exact absurd ⟨f, rfl⟩ hp
  | _ => rfl

/-- Frames and other contents do not interfere. -/
theorem Steadfast.credit {g : Payload → Payload} (hg : Steadfast g) (b : Ref) (p : Payload) :
    g (p.credit b) = (g p).credit b := by
  by_cases hp : ∃ f, p = .frame f
  · obtain ⟨f, rfl⟩ := hp
    rw [hg (.frame f) (.inl ⟨f, rfl⟩)]
    exact hg _ (.inl ⟨_, rfl⟩)
  · have hgp : ¬ ∃ f, g p = .frame f := by
      rintro ⟨f, hf⟩
      exact hp ⟨f, (hg p (.inr (.inr ⟨f, hf⟩))).symm.trans hf⟩
    rw [credit_of_ne hp, credit_of_ne hgp]

end Payload

namespace Heap

variable {h : Heap} {r b : Ref}

theorem credit_update {g : Payload → Payload} (hg : Payload.Steadfast g) (x : Ref) :
    (h.credit r b).update x g = (h.update x g).credit r b := by
  have hcells : (h.cells.modify r.cell fun cell =>
        { cell with obj := cell.obj.map fun o => { o with payload := o.payload.credit b } }).modify
          x.cell (fun cell =>
            { cell with obj := cell.obj.map fun o => { o with payload := g o.payload } }) =
      (h.cells.modify x.cell fun cell =>
        { cell with obj := cell.obj.map fun o => { o with payload := g o.payload } }).modify
          r.cell fun cell =>
            { cell with obj := cell.obj.map fun o =>
                { o with payload := o.payload.credit b } } := by
    refine Array.ext_getElem? fun i => ?_
    simp only [Array.getElem?_modify]
    cases h.cells[i]? with
    | none => simp
    | some cell =>
      by_cases hr : r.cell = i <;> by_cases hx : x.cell = i <;>
        simp [hr, hx, Option.map_map, Function.comp_def, hg.credit]
  simp only [credit, update, hcells]

theorem Credible.update (hc : h.Credible r b) {g : Payload → Payload} (hg : Payload.Steadfast g)
    (x : Ref) : (h.update x g).Credible r b := by
  have hkeep : ∀ {y : Ref} {p : Payload}, h.payload y = .ok p → g p = p →
      (h.update x g).payload y = .ok p := by
    intro y p hy hp
    obtain ⟨k, hk⟩ := payload_eq_ok_iff.mp hy
    refine payload_eq_ok_iff.mpr ⟨k, ?_⟩
    rw [get_update_of_get hk, hp]
    simp
  obtain ⟨f, m, m', hr, hm, hb, hname⟩ := hc
  exact ⟨f, m, m', hkeep hr (hg _ (.inl ⟨f, rfl⟩)), hkeep hm (hg _ (.inr (.inl ⟨m, rfl⟩))),
    hkeep hb (hg _ (.inr (.inl ⟨m', rfl⟩))), hname⟩

/-- A new object is not the frame. -/
theorem credit_place (hf : h.FreeList) (hr : h.contains r = true) (o : Obj) :
    (h.credit r b).place o = ((h.place o).1, (h.place o).2.credit r b) := by
  have hfree : (h.credit r b).free = h.free := rfl
  unfold place
  rw [hfree]
  cases hlist : h.free with
  | nil =>
    have hlt := contains_cell_lt hr
    have hcells : (h.credit r b).cells.push { obj := some o } =
        (h.cells.push { obj := some o }).modify r.cell fun cell =>
          { cell with obj := cell.obj.map fun o => { o with payload := o.payload.credit b } } := by
      refine Array.ext_getElem? fun i => ?_
      simp only [credit, update, Array.getElem?_push, Array.getElem?_modify, Array.size_modify]
      by_cases hi : i = h.cells.size
      · simp [hi, Nat.ne_of_lt hlt]
      · simp [hi]
    simp only [credit_cells_size, hcells]
    rfl
  | cons c rest =>
    obtain ⟨cell, hcell, hnone⟩ := hf.empty c (by rw [hlist]; exact List.mem_cons_self)
    have hne : r.cell ≠ c := by
      rintro rfl
      obtain ⟨x, hx⟩ := contains_iff.mp hr
      obtain ⟨-, cell', hcell', -, hobj⟩ := get_eq_ok.mp hx
      rw [hcell] at hcell'
      cases hcell'
      rw [hnone] at hobj
      cases hobj
    have hsame : (h.credit r b).cells[c]? = h.cells[c]? := by
      simp [credit, update, Array.getElem?_modify, hne]
    have hcells : (h.credit r b).cells.modify c (fun cell => { cell with obj := some o }) =
        (h.cells.modify c fun cell => { cell with obj := some o }).modify r.cell fun cell =>
          { cell with obj := cell.obj.map fun o => { o with payload := o.payload.credit b } } := by
      refine Array.ext_getElem? fun i => ?_
      simp only [credit, update, Array.getElem?_modify]
      by_cases hi : c = i
      · have hri : r.cell ≠ i := hi ▸ hne
        simp [hi, hri]
      · simp [hi]
    simp only [hsame, hcells]
    rfl

theorem Credible.place (hf : h.FreeList) (hc : h.Credible r b) (o : Obj) :
    (h.place o).2.Credible r b := by
  have ht : h.Turns (fun _ => Eq) (h.place o).2 := (Turns.refl hf fun _ _ => rfl).place o
  have hkeep : ∀ {y : Ref} {p : Payload}, h.payload y = .ok p → (h.place o).2.payload y = .ok p := by
    intro y p hy
    obtain ⟨_, hq, rfl⟩ := ht.payload hy
    exact hq
  obtain ⟨f, m, m', hr, hm, hb, hname⟩ := hc
  exact ⟨f, m, m', hkeep hr, hkeep hm, hkeep hb, hname⟩

end Heap

namespace Vm

variable {r b : Ref} {vm : Vm}

/-- Going on, in the same way, after actions that come to the same. -/
theorem bind_credit {α β : Type} {a a' : Action α} {f f' : α → Action β} {v' : Vm}
    (h : a' v' = mapState (credit r b) (a vm) ∧ (final (a vm)).Credible r b)
    (hf : ∀ x u, a vm = .ok x u → u.Credible r b →
      f' x (u.credit r b) = mapState (credit r b) (f x u) ∧ (final (f x u)).Credible r b) :
    (a' >>= f') v' = mapState (credit r b) ((a >>= f) vm) ∧
      (final ((a >>= f) vm)).Credible r b := by
  obtain ⟨hsame, hend⟩ := h
  cases hrun : a vm with
  | ok x u =>
    rw [hrun] at hsame hend
    rw [bind_ok hsame, bind_ok hrun]
    exact hf x u hrun hend
  | error e u =>
    rw [hrun] at hsame hend
    rw [bind_error hsame, bind_error hrun]
    exact ⟨rfl, hend⟩

/-- A new object that a class of this heap is asked for. -/
theorem alloc_credit (hc : vm.Credible r b) (cls : Ref) (p : Payload) :
    alloc cls p (vm.credit r b) = mapState (credit r b) (alloc cls p vm) ∧
      (final (alloc cls p vm)).Credible r b := by
  have hown : (vm.credit r b).heap.checkOwn cls = vm.heap.checkOwn cls := rfl
  have hplace : (vm.credit r b).heap.place ⟨cls, p⟩ = _ :=
    Heap.credit_place hc.freeList hc.frame.contains ⟨cls, p⟩
  unfold alloc
  rw [hown]
  cases vm.heap.checkOwn cls with
  | error e => exact ⟨rfl, hc⟩
  | ok _ =>
    refine ⟨?_, Heap.place_freeList hc.freeList _, hc.frame.place hc.freeList _⟩
    simp only [hplace]
    rfl

/-- A frame that is pushed is a new one. -/
theorem enter_credit (hc : vm.Credible r b) {method : Ref} {args : List Ref}
    (h : Crediting r b ActiveFrame (activate method args)) :
    enter method args (vm.credit r b) = mapState (credit r b) (enter method args vm) ∧
      (final (enter method args vm)).Credible r b := by
  refine bind_credit (h vm hc) fun f u hrun hend => ⟨?_, hend.freeList, hend.frame⟩
  have hne : f.frame ≠ r := by
    rintro rfl
    have hfresh := (activate_eq_ok hc.freeList hrun).2.1
    rw [hc.frame.contains] at hfresh
    cases hfresh
  show EStateM.Result.ok () _ = EStateM.Result.ok () _
  congr 1
  simp [credit, ActiveFrame.credit, hne]

end Vm

namespace Crediting

variable {r b : Ref}

instance rule : HashRule (Crediting r b) where
  return_ _ _ hc := ⟨rfl, hc⟩
  fail _ _ hc := ⟨rfl, hc⟩
  bind ha hf vm hc := Vm.bind_credit (ha vm hc) fun x u _ hend => hf x u hend
  look {α f} hf hsame vm hc := by
    show f (vm.credit r b) (vm.credit r b) = mapState (Vm.credit r b) (f vm vm) ∧ _
    rw [hsame r b vm hc.frame]
    exact hf vm vm hc
  change {g} hheap hcredit vm hc := by
    refine ⟨?_, ?_⟩
    · show EStateM.Result.ok () (g (vm.credit r b)) = EStateM.Result.ok () ((g vm).credit r b)
      rw [hcredit]
    · show (g vm).Credible r b
      exact ⟨(hheap vm).symm ▸ hc.freeList, (hheap vm).symm ▸ hc.frame⟩
  update x g hg vm hc := by
    refine ⟨?_, Heap.update_freeList hc.freeList x g, hc.frame.update hg.steadfast x⟩
    show EStateM.Result.ok () _ = EStateM.Result.ok () _
    simp only [Vm.credit, Heap.credit_update hg.steadfast]
  alloc cls p _ vm hc := Vm.alloc_credit hc cls p
  enter method args h vm hc := Vm.enter_credit hc h
  hashGet hash key h vm hc := by
    obtain ⟨hsame, hend⟩ := h vm hc
    unfold Vm.hashGet
    rw [hsame]
    cases hrun : Vm.getItem hash key vm with
    | ok x u =>
      rw [hrun] at hend
      exact ⟨rfl, hend⟩
    | error e u =>
      rw [hrun] at hend
      rcases e with (_ | _) | _ | _ <;> exact ⟨rfl, hend⟩
  setTable x t vm hc := by
    refine ⟨?_, Heap.update_freeList hc.freeList x _,
      hc.frame.update (Payload.steadfast_setTable t) x⟩
    show EStateM.Result.ok () _ = EStateM.Result.ok () _
    simp only [Vm.credit, Heap.credit_update (Payload.steadfast_setTable t)]

/-- What obeys the rules does the same whichever method the frame names. -/
theorem of_obeys {α : Type} {a : Action α} [h : Obeys (Crediting r b) a] {vm : Vm}
    (hc : vm.Credible r b) :
    a (vm.credit r b) = mapState (Vm.credit r b) (a vm) ∧ (final (a vm)).Credible r b :=
  h.holds vm hc

end Crediting

/-! ## Steps -/

def Machine.credit (r b : Ref) (m : Machine) : Machine :=
  { m with vm := m.vm.credit r b }

namespace Outcome

/-- The same outcome, in which the frame `r` is said to run the method `b`. -/
def credit (r b : Ref) : Outcome → Outcome
  | .next m => .next (m.credit r b)
  | .done vm result => .done (vm.credit r b) result
  | .blocked m request => .blocked (m.credit r b) request
  | .fatal vm f => .fatal (vm.credit r b) f
  | .crashed vm => .crashed (vm.credit r b)

end Outcome

/-- The next step collects garbage: at an instruction, or because the collector is called. -/
def Machine.Collecting (m : Machine) : Prop :=
  m.Collects ∨ m.mode = .running ∧ m.vm.TickCollects

namespace Machine

variable {r b : Ref} {vm : Vm} {m : Machine}

theorem collecting_credit (m : Machine) : (m.credit r b).Collecting ↔ m.Collecting := by
  have hcollect : ∀ x, (m.vm.heap.credit r b).IsCollect x ↔ m.vm.heap.IsCollect x := by
    intro x
    unfold Heap.IsCollect
    rcases Heap.get_credit_cases (h := m.vm.heap) (r := r) (b := b) x with hx | ⟨k, f, hx, -, hx'⟩
    · rw [hx]
    · rw [hx, hx']
      simp
  have hcalls : (m.credit r b).Collects ↔ m.Collects := by
    constructor
    · rintro ⟨callee, args, hmode, hc⟩
      exact ⟨callee, args, hmode, (hcollect callee).mp hc⟩
    · rintro ⟨callee, args, hmode, hc⟩
      exact ⟨callee, args, hmode, (hcollect callee).mpr hc⟩
  exact or_congr hcalls Iff.rfl

/-- Going on after actions that come to the same. -/
theorem continueWith_credit {α : Type} {a a' : Action α} {u : Vm} {konts : List Kont}
    {f : α → Vm → Machine}
    (h : a' u = mapState (Vm.credit r b) (a vm) ∧ (final (a vm)).Credible r b)
    (hf : ∀ x u, f x (u.credit r b) = (f x u).credit r b) (hvm : ∀ x u, (f x u).vm.heap = u.heap) :
    continueWith a' u konts f = (continueWith a vm konts f).credit r b ∧
      (continueWith a vm konts f).vm.Credible r b := by
  obtain ⟨hsame, hend⟩ := h
  unfold continueWith
  rw [hsame]
  cases hrun : a vm with
  | ok x u =>
    rw [hrun] at hend
    refine ⟨congrArg Outcome.next (hf x u), ?_, ?_⟩
    · show (f x u).vm.heap.FreeList
      exact hvm x u ▸ hend.freeList
    · show (f x u).vm.heap.Credible r b
      exact hvm x u ▸ hend.frame
  | error e u =>
    rw [hrun] at hend
    cases e <;> exact ⟨rfl, hend⟩

theorem continueWith_obeys {α : Type} {a : Action α} [Obeys (Crediting r b) a]
    (hc : vm.Credible r b) {konts : List Kont} {f : α → Vm → Machine}
    (hf : ∀ x u, f x (u.credit r b) = (f x u).credit r b) (hvm : ∀ x u, (f x u).vm.heap = u.heap) :
    continueWith a (vm.credit r b) konts f = (continueWith a vm konts f).credit r b ∧
      (continueWith a vm konts f).vm.Credible r b :=
  continueWith_credit (Crediting.of_obeys hc) hf hvm

theorem ofReply_credit (konts : List Kont) (reply : Reply) (u : Vm) :
    ofReply konts reply (u.credit r b) = (ofReply konts reply u).credit r b := by
  cases reply <;> rfl

theorem ofReply_heap (konts : List Kont) (reply : Reply) (u : Vm) :
    (ofReply konts reply u).vm.heap = u.heap := by
  cases reply <;> rfl

theorem stepReturning_credit (hc : vm.Credible r b) (v : Ref) (konts : List Kont) :
    stepReturning v (vm.credit r b) konts = (stepReturning v vm konts).credit r b ∧
      (stepReturning v vm konts).vm.Credible r b := by
  rcases konts with _ | ⟨_ | _ | _ | _ | _, konts⟩
  case cons.operands | cons.attempt =>
    exact continueWith_obeys hc (fun _ _ => rfl) fun _ _ => rfl
  all_goals exact ⟨rfl, hc.freeList, hc.frame⟩

theorem stepRaising_credit (hc : vm.Credible r b) (e : Error) (konts : List Kont) :
    stepRaising e (vm.credit r b) konts = (stepRaising e vm konts).credit r b ∧
      (stepRaising e vm konts).vm.Credible r b := by
  rcases konts with _ | ⟨_ | _ | _ | _ | _, konts⟩
  case cons.loop | cons.attempt | cons.guard =>
    exact continueWith_obeys hc (fun _ _ => rfl) fun _ _ => rfl
  all_goals exact ⟨rfl, hc.freeList, hc.frame⟩

theorem stepRunning_credit (hc : vm.Credible r b) (htick : ¬ vm.TickCollects)
    (konts : List Kont) :
    stepRunning (vm.credit r b) konts = (stepRunning vm konts).credit r b ∧
      (stepRunning vm konts).vm.Credible r b := by
  rcases konts with _ | ⟨_ | _ | _ | _ | _, konts⟩
  case cons.loop floor base =>
    refine continueWith_credit ?_ (fun flow _ => by cases flow <;> rfl) fun flow _ => by
      cases flow <;> rfl
    have htick' : ¬ (vm.credit r b).TickCollects := htick
    have hticked : { vm with ticks := vm.ticks + 1 }.Credible r b := ⟨hc.freeList, hc.frame⟩
    have hperform := Crediting.of_obeys (a := Vm.performIn floor) hticked
    unfold Vm.stepLoop
    rw [bind_ok (Vm.tick_run htick), bind_ok (Vm.tick_run htick')]
    exact hperform
  all_goals exact ⟨rfl, hc.freeList, hc.frame⟩

theorem isCollect_iff {callee : Ref} :
    vm.heap.IsCollect callee ↔ vm.RunsNatively callee .collect := by
  constructor
  · rintro ⟨k, m, hget, hbody⟩
    exact ⟨m, Heap.payload_eq_ok_iff.mpr ⟨k, hget⟩, hbody⟩
  · rintro ⟨m, hm, hbody⟩
    obtain ⟨k, hget⟩ := Heap.payload_eq_ok_iff.mp hm
    exact ⟨k, m, hget, hbody⟩

/-- A call, unless it is one of the collector. -/
theorem call_credit (hc : vm.Credible r b) {callee : Ref} (args : List Ref)
    (hne : ¬ Machine.Collecting ⟨vm, [], .calling callee args⟩) :
    Vm.call callee args (vm.credit r b) =
        mapState (Vm.credit r b) (Vm.call callee args vm) ∧
      (final (Vm.call callee args vm)).Credible r b := by
  -- the collector, which does not obey the rules, is not what is called
  let run (f : Native) (args : List Ref) : Action Reply :=
    if f = .collect then throw .crashed else Vm.runNative f args
  have hrun : ∀ f args, Obeys (Crediting r b) (run f args) := by
    intro f args
    by_cases hf : f = .collect
    · simp only [run, hf, if_true]
      infer_instance
    · simp only [run, hf, if_false]
      exact Obeys.runNativeFilling hf args
  have hcall : ∀ u : Vm, ¬ Machine.Collecting ⟨u, [], .calling callee args⟩ →
      Vm.call callee args u = Vm.callBy run callee args u := by
    intro u hu
    rw [Vm.call_eq]
    refine Vm.callBy_congr args fun f hf => ?_
    have hcollect : f ≠ .collect := by
      rintro rfl
      exact hu (.inl ⟨callee, args, rfl, isCollect_iff.mpr hf⟩)
    funext args
    simp only [run, hcollect, if_false]
  rw [hcall vm hne, hcall (vm.credit r b) fun h => hne ((collecting_credit _).mp h)]
  exact (Obeys.callBy hrun callee args).holds vm hc

/-- A step that collects nothing. -/
theorem step_credit (hc : m.vm.Credible r b) (hm : ¬ m.Collecting) :
    (m.credit r b).step = m.step.credit r b ∧ m.step.vm.Credible r b := by
  obtain ⟨vm, konts, mode⟩ := m
  cases mode with
  | running => exact stepRunning_credit hc (fun h => hm (.inr ⟨rfl, h⟩)) konts
  | calling callee args =>
    have hne : ¬ Machine.Collecting ⟨vm, [], .calling callee args⟩ := by
      rintro (⟨_, _, ⟨⟩, hcollect⟩ | ⟨⟨⟩, -⟩)
      exact hm (.inl ⟨callee, args, rfl, hcollect⟩)
    exact continueWith_credit (call_credit hc args hne) (ofReply_credit konts) (ofReply_heap konts)
  | constructing cls args =>
    exact continueWith_obeys hc (ofReply_credit konts) (ofReply_heap konts)
  | returning v => exact stepReturning_credit hc v konts
  | raising e => exact stepRaising_credit hc e konts
  | waiting request => exact ⟨rfl, hc⟩

theorem resume_credit (hc : m.vm.Credible r b) (a : Answer) :
    (m.credit r b).resume a = (m.resume a).credit r b ∧ (m.resume a).vm.Credible r b :=
  continueWith_obeys hc (fun _ _ => rfl) fun _ _ => rfl

end Machine

/-! ## Runs -/

namespace Outcome.Visits

variable {r b : Ref} {o e : Outcome} {x : List Exchange}

/-- What a run comes to, a run with the other method comes to as well. -/
theorem credit (h : o.Visits Machine.Collecting x e) (hc : o.vm.Credible r b) :
    (o.credit r b).Visits Machine.Collecting x (e.credit r b) := by
  induction h with
  | here o => exact .here _
  | @step m x o hm _ ih =>
    obtain ⟨hstep, hend⟩ := Machine.step_credit hc hm
    refine .step (fun h => hm ((Machine.collecting_credit m).mp h)) ?_
    rw [hstep]
    exact ih hend
  | @answer m request a x o _ ih =>
    obtain ⟨hresume, hend⟩ := Machine.resume_credit hc a
    refine .answer ?_
    rw [hresume]
    exact ih hend

/-- And it comes to nothing else. -/
theorem of_credit {e' : Outcome} (h : (o.credit r b).Visits Machine.Collecting x e')
    (hc : o.vm.Credible r b) : ∃ e, o.Visits Machine.Collecting x e ∧ e' = e.credit r b := by
  generalize ho : o.credit r b = o' at h
  induction h generalizing o with
  | here _ => exact ⟨o, .here o, ho.symm⟩
  | @step m' x e' hm _ ih =>
    cases o with
    | next m =>
      cases ho
      have hm : ¬ m.Collecting := fun h => hm ((Machine.collecting_credit m).mpr h)
      obtain ⟨hstep, hend⟩ := Machine.step_credit hc hm
      obtain ⟨e, hvisits, he⟩ := ih hend hstep.symm
      exact ⟨e, .step hm hvisits, he⟩
    | _ => cases ho
  | @answer m' request a x e' _ ih =>
    cases o with
    | blocked m =>
      cases ho
      obtain ⟨hresume, hend⟩ := Machine.resume_credit hc a
      obtain ⟨e, hvisits, he⟩ := ih hend hresume.symm
      exact ⟨e, .answer hvisits, he⟩
    | _ => cases ho

end Outcome.Visits
end ObjectMachine
