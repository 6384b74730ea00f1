import ObjectMachine.Proofs.Machine.Crediting
import ObjectMachine.Proofs.Scopes.Parameters

/-!
# ObjectMachine.Proofs.Machine.BoundCalls

Calling a bound method is calling the method with the receiver in front.

A native function gets the receiver in a longer list of arguments; a method with bytecode gets it as
one more parameter, when its frame is made. Either way the same is run with the same values, and only
the frame remembers which of the two methods was called.

* `Heap.Callable` — an object that is called as methods are.
* `Vm.enter_bound` — entering a bound method and entering the method with the receiver in front begin
  a frame with the same values, or fail in the same way.
* `Vm.beginFrame_credit`, `Vm.call_bound` — the rest of the call comes to the same, but for the method
  that the new frame names.
* `Outcome.AgreeBut` — two runs that differ in what one frame names.
* `Vm.bound_call_agrees` — calls of the two agree, and attributes of instances are such methods.
-/

namespace ObjectMachine

open ObjectMachine.Action

namespace Heap

/-- The object `x` holds the method `M`, and its class calls it as methods are called. -/
def Callable (h : Heap) (x : Ref) (M : Method) : Prop :=
  ∃ k, h.get x = .ok ⟨k, .method M⟩ ∧ h.requireSlot .call Slots.call k = .ok .method

variable {h : Heap}

theorem Callable.payload {x : Ref} {M : Method} (hx : h.Callable x M) :
    h.payload x = .ok (.method M) := by
  obtain ⟨k, hget, -⟩ := hx
  exact payload_eq_ok_iff.mpr ⟨k, hget⟩

/-- A new frame that names another method. -/
theorem place_frame (k b : Ref) (f : Frame) :
    h.place ⟨k, .frame { f with method := b }⟩ =
      ((h.place ⟨k, .frame f⟩).1, (h.place ⟨k, .frame f⟩).2.credit (h.place ⟨k, .frame f⟩).1 b) := by
  unfold place
  cases hlist : h.free with
  | nil =>
    have hcells : h.cells.push { obj := some ⟨k, .frame { f with method := b }⟩ } =
        (h.cells.push { obj := some ⟨k, .frame f⟩ }).modify h.cells.size fun cell =>
          { cell with obj := cell.obj.map fun o => { o with payload := o.payload.credit b } } := by
      refine Array.ext_getElem? fun i => ?_
      simp only [Array.getElem?_push, Array.getElem?_modify]
      by_cases hi : i = h.cells.size
      · simp [hi, Payload.credit]
      · simp [hi, Ne.symm hi]
    simp only [hcells]
    rfl
  | cons c rest =>
    have hcells : h.cells.modify c
          (fun cell => { cell with obj := some ⟨k, .frame { f with method := b }⟩ }) =
        (h.cells.modify c fun cell => { cell with obj := some ⟨k, .frame f⟩ }).modify c fun cell =>
          { cell with obj := cell.obj.map fun o => { o with payload := o.payload.credit b } } := by
      refine Array.ext_getElem? fun i => ?_
      simp only [Array.getElem?_modify]
      by_cases hi : c = i
      · simp [hi, Option.map_map, Function.comp_def, Payload.credit]
      · simp [hi]
    simp only [hcells]
    rfl

end Heap

namespace Vm

variable {vm : Vm} {m o b : Ref} {M : Method} {args : List Ref}

/-! ## Calling a method -/

theorem require_call {x : Ref} (hx : vm.heap.Callable x M) :
    require .call Slots.call x vm = .ok .method vm := by
  obtain ⟨k, hget, hslot⟩ := hx
  refine ofHeap_run ?_
  have hclass : vm.heap.classOf x = .ok k := by rw [Heap.classOf, hget]
  rw [hclass]
  exact hslot

/-- A native function runs with the receiver in front. -/
theorem call_native {x : Ref} (hx : vm.heap.Callable x M) {f : Native} (hf : M.body = .native f)
    (args : List Ref) : call x args vm = runNative f (M.receiver.toList ++ args) vm := by
  have hread : payload x vm = .ok (.method M) vm := payload_eq_ok.mpr ⟨hx.payload, rfl⟩
  unfold call
  rw [bind_ok (require_call hx)]
  unfold callMethod
  show (payload x >>= _ : Action Reply) vm = _
  rw [bind_ok hread]
  simp only [hf]

/-- Bytecode runs in a loop of its own. -/
theorem call_bytecode {x : Ref} (hx : vm.heap.Callable x M) (hM : ∀ f, M.body ≠ .native f)
    (args : List Ref) : call x args vm =
      (enterLoop x args >>= fun heights => pure (.entered heights.1 heights.2) : Action Reply) vm := by
  have hread : payload x vm = .ok (.method M) vm := payload_eq_ok.mpr ⟨hx.payload, rfl⟩
  unfold call
  rw [bind_ok (require_call hx)]
  unfold callMethod
  show (payload x >>= _ : Action Reply) vm = _
  rw [bind_ok hread]
  cases hbody : M.body with
  | native f => exact absurd hbody (hM f)
  | _ => simp only [hbody]

/-! ## Entering a method -/

/-- A frame with its parameters bound is made and pushed. -/
def beginFrame (method : Ref) (c : Callee) (unit : CodeUnit) (values : List Ref) : Action Unit := do
  let f ← furnish method c unit values
  modify fun vm => { vm with frames := vm.frames.push { f with base := vm.stack.size } }

/-- What is left to do when the object of the frame is there. -/
def pushFrame (frame : Ref) (locals : NameMap Ref) (method : Ref) (c : Callee) (unit : CodeUnit)
    (values : List Ref) : Action Unit := do
  bindParams locals unit.params values
  trace Channels.vm "vm" fun vm => s!"enter {unit.name} (depth {vm.frames.size + 1})"
  modify fun vm => { vm with
    frames := vm.frames.push ⟨frame, method, c.code, c.module, unit, 0, vm.stack.size⟩ }

theorem beginFrame_eq (method : Ref) (c : Callee) (unit : CodeUnit) (values : List Ref) :
    beginFrame method c unit values =
      allocFrame method unit c.bindings >>= fun f => pushFrame f.1 f.2 method c unit values := by
  unfold beginFrame furnish pushFrame
  simp only [bind_assoc, pure_bind]

/-- A new frame may be said to run any method of the name. -/
theorem pushFrame_credit {r : Ref} (hc : vm.Credible r b) (locals : NameMap Ref) (m : Ref)
    (c : Callee) (unit : CodeUnit) (values : List Ref) :
    pushFrame r locals b c unit values (vm.credit r b) =
        mapState (credit r b) (pushFrame r locals m c unit values vm) ∧
      (final (pushFrame r locals m c unit values vm)).Credible r b := by
  unfold pushFrame
  refine bind_credit (Crediting.of_obeys hc) fun _ u _ hu => ?_
  refine bind_credit (Crediting.of_obeys hu) fun _ w _ hw => ⟨?_, hw.freeList, hw.frame⟩
  show EStateM.Result.ok () _ = EStateM.Result.ok () _
  congr 1
  simp [credit, ActiveFrame.credit]

/-- The frames that run have objects of their own, other than a new one. -/
theorem credit_new (hv : vm.Live) {r : Ref} (hr : vm.heap.contains r = false) (b : Ref) (h : Heap) :
    credit r b { vm with heap := h } = { vm with heap := h.credit r b } := by
  have hframes : vm.frames.map (ActiveFrame.credit r b) = vm.frames := by
    refine (Array.map_congr_left fun f hmem => if_neg ?_).trans (Array.map_id' _)
    intro hfr
    have hlive := hv.roots f.frame (mem_roots_frame (Array.mem_toList_iff.mpr hmem) (by simp))
    rw [hfr, hr] at hlive
    cases hlive
  show { vm with heap := h.credit r b, frames := vm.frames.map (ActiveFrame.credit r b) } = _
  rw [hframes]

/-- The object of the frame is the same for every method, but for the method that it names. -/
theorem allocFrame_credit (hv : vm.Live) (hm : vm.heap.payload m = .ok (.method M))
    (unit : CodeUnit) (bindings : NameMap Ref) :
    ∃ r made u, vm.heap.contains r = false ∧ allocFrame m unit bindings vm = .ok (r, made) u ∧
      ∀ b M', vm.heap.payload b = .ok (.method M') → M'.name = M.name →
        u.Credible r b ∧ allocFrame b unit bindings vm = .ok (r, made) (u.credit r b) := by
  obtain ⟨made, h₁, hmake, hgets⟩ := makeLocals_run hv.heap.freeList bindings unit.locals {}
  have hf := hgets.freeList
  have halloc : ∀ x, allocFrame x unit bindings vm = _ := fun x => by
    unfold allocFrame
    exact (bind_ok hmake).trans (bind_ok (new_eq _ .frame _))
  have hnew : ∀ o, vm.heap.contains (h₁.place o).1 = false := by
    intro o
    rw [Bool.eq_false_iff]
    intro hr
    have hfresh := Heap.place_fresh hf o
    rw [hgets.contains hr] at hfresh
    cases hfresh
  refine ⟨_, made, _, hnew _, halloc m, fun b M' hb hname => ⟨⟨?_, ?_⟩, ?_⟩⟩
  · exact Heap.place_freeList hf _
  · have hkeep : ∀ {o : Obj} {x : Ref} {p : Payload}, vm.heap.payload x = .ok p →
        (h₁.place o).2.payload x = .ok p := by
      intro o x p hx
      obtain ⟨l, hl⟩ := Heap.payload_eq_ok_iff.mp hx
      exact Heap.payload_eq_ok_iff.mpr ⟨l, Heap.get_place_of_get hf _ (hgets.kept hl)⟩
    exact ⟨_, M, M', Heap.payload_place_self hf _, hkeep hm, hkeep hb, hname⟩
  · rw [halloc b, credit_new hv (hnew _)]
    have hplace := Heap.place_frame (h := h₁) (Builtin.frame.ref h₁.id) b
      ⟨m, made, freeVars bindings made unit.freevars {}⟩
    show EStateM.Result.ok ((h₁.place _).1, made) { vm with heap := (h₁.place _).2 } = _
    rw [hplace]

/-- The new frame may be said to run any method of the name, and then it has been made for it. -/
theorem beginFrame_credit (hv : vm.Live) (hm : vm.heap.payload m = .ok (.method M)) (c : Callee)
    (unit : CodeUnit) (values : List Ref) :
    ∃ r, vm.heap.contains r = false ∧
      ∀ b M', vm.heap.payload b = .ok (.method M') → M'.name = M.name →
        beginFrame b c unit values vm = mapState (credit r b) (beginFrame m c unit values vm) ∧
          (final (beginFrame m c unit values vm)).Credible r b := by
  obtain ⟨r, made, u, hnew, halloc, hnamed⟩ := allocFrame_credit hv hm unit c.bindings
  refine ⟨r, hnew, fun b M' hb hname => ?_⟩
  obtain ⟨hc, halloc'⟩ := hnamed b M' hb hname
  rw [beginFrame_eq, beginFrame_eq, bind_ok halloc, bind_ok halloc']
  exact pushFrame_credit hc made m c unit values

/-- A bound method is entered with the same checks and the same values as the method with the
receiver in front. -/
theorem enter_bound (hm : vm.heap.payload m = .ok (.method M)) (hM : M.receiver = none)
    (hb : vm.heap.payload b = .ok (.method { M with receiver := some o }))
    (hbody : ∀ f, M.body ≠ .native f) (args : List Ref) :
    (∃ e, enter m (o :: args) vm = .error e vm ∧ enter b args vm = .error e vm) ∨
      ∃ c unit, enter m (o :: args) vm = beginFrame m c unit (o :: args) vm ∧
        enter b args vm = beginFrame b c unit (o :: args) vm := by
  obtain ⟨code, hcode⟩ : ∃ code, M.body.code? = some code := by
    cases hM : M.body with
    | native f => exact absurd hM (hbody f)
    | _ => exact ⟨_, rfl⟩
  have hcallee : callee m vm = .ok ⟨code, M.body.module?, none, M.body.bindings⟩ vm :=
    hM ▸ callee_run hm hcode
  have hcallee' : callee b vm = .ok ⟨code, M.body.module?, some o, M.body.bindings⟩ vm :=
    callee_run hb hcode
  unfold enter
  by_cases hdepth : vm.callDepth ≥ vm.config.maxFrames
  · left
    have hover : ∀ x xs, activate x xs vm = .error (.raised (.stackOverflow vm.frames.size)) vm := by
      intro x xs
      rw [activate_run, if_pos hdepth]
      rfl
    exact ⟨_, bind_error (hover m _), bind_error (hover b _)⟩
  · rcases Reads.cases (codeUnit code) vm with ⟨unit, hunit⟩ | ⟨e, hunit⟩
    · by_cases hlength : (o :: args).length ≠ unit.arity.toNat
      · left
        have harity : ∀ {x xs c}, callee x vm = .ok c vm → c.code = code →
            c.receiver.toList ++ xs = o :: args → activate x xs vm =
              .error (.raised (.arity unit.name unit.arity.toNat (o :: args).length)) vm := by
          intro x xs c hc hcode hvalues
          rw [activate_run, if_neg hdepth, bind_ok hc, hcode, bind_ok hunit, hvalues,
            if_pos hlength]
          rfl
        exact ⟨_, bind_error (harity hcallee rfl rfl), bind_error (harity hcallee' rfl rfl)⟩
      · right
        have hrun : ∀ {x xs c}, callee x vm = .ok c vm → c.code = code →
            c.receiver.toList ++ xs = o :: args →
              activate x xs vm = furnish x c unit (o :: args) vm := by
          intro x xs c hc hcode hvalues
          rw [activate_run, if_neg hdepth, bind_ok hc, hcode, bind_ok hunit, hvalues,
            if_neg hlength]
        refine ⟨⟨code, M.body.module?, none, M.body.bindings⟩, unit, ?_, ?_⟩
        · rw [beginFrame, bind_run, bind_run, hrun hcallee rfl rfl]
        · rw [beginFrame, bind_run, bind_run, hrun hcallee' rfl rfl]
          rfl
    · left
      have hfails : ∀ {x xs c}, callee x vm = .ok c vm → c.code = code →
          activate x xs vm = .error e vm := by
        intro x xs c hc hcode
        rw [activate_run, if_neg hdepth, bind_ok hc, hcode, bind_error hunit]
      exact ⟨e, bind_error (hfails hcallee rfl), bind_error (hfails hcallee' rfl)⟩

/-- What is left of the call when the frame is there. -/
def openLoop (floor base : Nat) : Action Reply := do
  modify fun vm => { vm with loops := vm.loops + 1 }
  return .entered floor base

theorem openLoop_credit {r : Ref} (hc : vm.Credible r b) (floor base : Nat) :
    openLoop floor base (vm.credit r b) = mapState (credit r b) (openLoop floor base vm) ∧
      (final (openLoop floor base vm)).Credible r b :=
  ⟨rfl, hc.freeList, hc.frame⟩

theorem bind_enterLoop (hloops : ¬vm.loops ≥ vm.config.maxNativeDepth) (x : Ref)
    (xs : List Ref) :
    (enterLoop x xs >>= fun heights => pure (.entered heights.1 heights.2) : Action Reply) vm =
      (enter x xs >>= fun _ => openLoop vm.frames.size vm.stack.size) vm := by
  rw [bind_run, enterLoop_run, if_neg hloops, bind_run, bind_run]
  cases enter x xs vm <;> rfl

/-- What the call of a bound method does first, the call of the method does with the receiver in
front; a frame that is made may be said to run any method of the name. -/
theorem call_bound (hv : vm.Live) (hm : vm.heap.Callable m M) (hM : M.receiver = none)
    (hb : vm.heap.Callable b { M with receiver := some o }) (args : List Ref) :
    call b args vm = call m (o :: args) vm ∨
      (∀ f, M.body ≠ .native f) ∧ ∃ r, vm.heap.contains r = false ∧
        call b args vm = mapState (credit r b) (call m (o :: args) vm) ∧
        call m (o :: args) vm = mapState (credit r m) (call m (o :: args) vm) ∧
        (final (call m (o :: args) vm)).Credible r b ∧
        (final (call m (o :: args) vm)).Credible r m := by
  by_cases hnative : ∃ f, M.body = .native f
  · obtain ⟨f, hf⟩ := hnative
    left
    rw [call_native hm hf, call_native hb hf, hM]
    rfl
  have hbody : ∀ f, M.body ≠ .native f := fun f hf => hnative ⟨f, hf⟩
  rw [call_bytecode hm hbody, call_bytecode hb hbody]
  by_cases hloops : vm.loops ≥ vm.config.maxNativeDepth
  · left
    have hover : ∀ x xs, enterLoop x xs vm =
        .error (.raised (.stackOverflow vm.frames.size)) vm := by
      intro x xs
      rw [enterLoop_run, if_pos hloops]
      rfl
    rw [bind_error (hover _ _), bind_error (hover _ _)]
  rw [bind_enterLoop hloops, bind_enterLoop hloops]
  rcases enter_bound hm.payload hM hb.payload hbody args with
    ⟨e, hleft, hright⟩ | ⟨c, unit, hleft, hright⟩
  · left
    rw [bind_error hleft, bind_error hright]
  · right
    obtain ⟨r, hnew, hframe⟩ := beginFrame_credit hv hm.payload c unit (o :: args)
    obtain ⟨hsame, hend⟩ := hframe b _ hb.payload rfl
    obtain ⟨hself, hend'⟩ := hframe m _ hm.payload rfl
    rw [← hleft] at hsame hend hself hend'
    obtain ⟨hcall, hcredible⟩ := bind_credit ⟨hright.trans hsame, hend⟩
      fun _ _ _ hu => openLoop_credit hu vm.frames.size vm.stack.size
    obtain ⟨hcall', hcredible'⟩ := bind_credit ⟨hself, hend'⟩
      fun _ _ _ hu => openLoop_credit hu vm.frames.size vm.stack.size
    exact ⟨hbody, r, hnew, hcall, hcall', hcredible, hcredible'⟩

/-! ## Attributes of instances -/

/-- The attribute of an instance is the nearest definition of the name, bound to the instance. -/
theorem getAttr_binds {k : Ref} {p : Payload} {cs : List Class} {name : String}
    (ho : vm.heap.get o = .ok ⟨k, p⟩)
    (hslot : vm.heap.requireSlot .getAttr Slots.getAttr k = .ok .object)
    (hl : vm.heap.Lineage k cs) (hm : cs.findSome? (fun c => c.methods.find? name) = some m) :
    getAttr o name vm = bind m o vm := by
  have hclass : vm.heap.classOf o = .ok k := by rw [Heap.classOf, ho]
  have hrequire : require .getAttr Slots.getAttr o vm = .ok .object vm := by
    refine ofHeap_run ?_
    rw [hclass]
    exact hslot
  have hlookup : vm.heap.lookupMethod k name = .ok (some m) :=
    hl.findInChain.trans (congrArg Except.ok hm)
  unfold getAttr
  rw [bind_ok hrequire]
  show getMethod o name vm = _
  unfold getMethod
  rw [bind_ok (ofHeap_run (g := fun h => h.classOf o) hclass)]
  show (Action.ofHeap (fun h => h.lookupMethod k name) >>= _ : Action Ref) vm = _
  rw [bind_ok (ofHeap_run hlookup)]

/-- Binding makes a new method with the receiver, and nothing else. -/
theorem bind_callable (hv : vm.Live) (hm : vm.heap.payload m = .ok (.method M)) (o : Ref) :
    ∃ b h', bind m o vm = .ok b { vm with heap := h' } ∧
      vm.heap.place ⟨Builtin.method.ref vm.heap.id, .method { M with receiver := some o }⟩ =
        (b, h') ∧
      vm.heap.contains b = false ∧ h'.Callable b { M with receiver := some o } := by
  have hf := hv.heap.freeList
  have hread : payload m vm = .ok (.method M) vm := payload_eq_ok.mpr ⟨hm, rfl⟩
  refine ⟨_, _, ?_, rfl, Heap.place_fresh hf _, _, (Heap.get_place hf _ _).trans (if_pos rfl), ?_⟩
  · unfold bind
    rw [bind_ok hread]
    exact new_eq vm .method _
  · obtain ⟨c, hc, hslots⟩ := hv.heap.builtin .method
    obtain ⟨d, hd, -, hslots'⟩ := Heap.place_keepsClasses hf _ _ c hc
    exact Heap.requireSlot_own .call hd (by rw [hslots', hslots]; rfl)

end Vm

/-- Both runs come to the same until the next collection, but for the frame `r`: in the first one it
names the method `m`, in the second one `b`, in the heap and among the active frames. -/
def Outcome.AgreeBut (r m b : Ref) (o o' : Outcome) : Prop :=
  ∀ x e', o'.Visits Machine.Collecting x e' ↔
    ∃ e, o.Visits Machine.Collecting x e ∧ e.credit r m = e ∧ e' = e.credit r b

namespace Outcome

variable {r m b : Ref} {o e : Outcome} {x : List Exchange}

/-- A frame that names a method goes on naming it. -/
theorem Visits.names (h : o.Visits Machine.Collecting x e) (hc : o.vm.Credible r m)
    (ho : o.credit r m = o) : e.credit r m = e := by
  induction h with
  | here o => exact ho
  | @step n x e hn _ ih =>
    obtain ⟨hstep, hend⟩ := Machine.step_credit hc hn
    have hself : n.credit r m = n := Outcome.next.inj ho
    exact ih hend (hstep.symm.trans (congrArg Machine.step hself))
  | @answer n request a x e _ ih =>
    obtain ⟨hresume, hend⟩ := Machine.resume_credit hc a
    have hself : n.credit r m = n := (Outcome.blocked.inj ho).1
    exact ih hend (hresume.symm.trans (congrArg (Machine.resume · a) hself))

theorem agreeBut_credit (hb : o.vm.Credible r b) (hm : o.vm.Credible r m)
    (ho : o.credit r m = o) : AgreeBut r m b o (o.credit r b) := by
  intro x e'
  constructor
  · intro h
    obtain ⟨e, hvisits, rfl⟩ := h.of_credit hb
    exact ⟨e, hvisits, hvisits.names hm ho, rfl⟩
  · rintro ⟨e, hvisits, -, rfl⟩
    exact hvisits.credit hb

end Outcome

/-- For a method `m` without receiver, native or with bytecode, and a method `b` that is `m` bound to
`o`: the call of `b` takes the same first step as the call of `m` with `o` in front, or the method
has bytecode and its frame is there after that step; from then on the two runs come to the same
points, ends and requests until the next collection, except that the frame names `b` in place of
`m`. The attribute of an instance `o` is a new method: the nearest definition of the name along the
class chain, bound to `o`. -/
theorem Vm.bound_call_agrees {vm : Vm} (hv : vm.Live) :
    (∀ (m o b : Ref) (M : Method) (args : List Ref) (konts : List Kont),
      vm.heap.Callable m M → M.receiver = none →
      vm.heap.Callable b { M with receiver := some o } →
        Machine.step ⟨vm, konts, .calling b args⟩ = Machine.step ⟨vm, konts, .calling m (o :: args)⟩ ∨
        (∀ f, M.body ≠ .native f) ∧ ∃ r, vm.heap.contains r = false ∧
          Outcome.AgreeBut r m b (Machine.step ⟨vm, konts, .calling m (o :: args)⟩)
            (Machine.step ⟨vm, konts, .calling b args⟩)) ∧
    ∀ (o k m : Ref) (p : Payload) (cs : List Class) (name : String) (M : Method),
      vm.heap.get o = .ok ⟨k, p⟩ →
      vm.heap.requireSlot .getAttr Slots.getAttr k = .ok .object →
      vm.heap.Lineage k cs → cs.findSome? (fun c => c.methods.find? name) = some m →
      vm.heap.payload m = .ok (.method M) →
        ∃ b h', Vm.getAttr o name vm = .ok b { vm with heap := h' } ∧
          vm.heap.place ⟨Builtin.method.ref vm.heap.id, .method { M with receiver := some o }⟩ =
            (b, h') ∧
          vm.heap.contains b = false ∧ h'.Callable b { M with receiver := some o } := by
  constructor
  · intro m o b M args konts hm hM hb
    rcases Vm.call_bound hv hm hM hb args with hsame | ⟨hbody, r, hnew, hb', hm', hcb, hcm⟩
    · left
      show Machine.continueWith (Vm.call b args) vm konts _ =
        Machine.continueWith (Vm.call m (o :: args)) vm konts _
      unfold Machine.continueWith
      rw [hsame]
    · have hagrees : ∀ (x : Ref) (xs : List Ref),
          Vm.call x xs vm = mapState (Vm.credit r x) (Vm.call m (o :: args) vm) →
          (final (Vm.call m (o :: args) vm)).Credible r x →
          Machine.step ⟨vm, konts, .calling x xs⟩ =
              (Machine.step ⟨vm, konts, .calling m (o :: args)⟩).credit r x ∧
            (Machine.step ⟨vm, konts, .calling m (o :: args)⟩).vm.Credible r x :=
        fun x xs hsame hend => Machine.continueWith_credit ⟨hsame, hend⟩
          (Machine.ofReply_credit konts) (Machine.ofReply_heap konts)
      have hstep := hagrees b args hb' hcb
      have hself := hagrees m (o :: args) hm' hcm
      refine .inr ⟨hbody, r, hnew, ?_⟩
      have hagree := Outcome.agreeBut_credit hstep.2 hself.2 hself.1.symm
      rw [← hstep.1] at hagree
      exact hagree
  · intro o k m p cs name M ho hslot hl hm hmethod
    obtain ⟨b, h', hbind, hplace, hnew, hcallable⟩ := Vm.bind_callable hv hmethod o
    exact ⟨b, h', (Vm.getAttr_binds ho hslot hl hm).trans hbind, hplace, hnew, hcallable⟩

/-- A class `A` with a method `x` of one parameter, an instance, and the method bound to it. -/
def Session.boundMethod : List Session.Deed :=
  [.operate (.classNew "A" 0) [Builtin.object.ref 0],
    .operate (.method { name := "x", code := #[.simple .pushNil, .simple .ret]
                        locals := ["self"], arity := 1 }) [],
    .operate (.define "x") [⟨0, 43, 0⟩, ⟨0, 45, 0⟩], .call (.instantiate ⟨0, 43, 0⟩ []), .step, .step,
    .operate .bind [⟨0, 45, 0⟩, ⟨0, 46, 0⟩]]

/-- The running frame names the method that was called. -/
def Vm.runsAfter (vm : Vm) (callee : Ref) (args : List Ref) : Bool :=
  match Machine.step ⟨vm, [], .calling callee args⟩ with
  | .next m => m.vm.frames.back?.map ActiveFrame.method == some callee
  | _ => false

/-- A method with this code that has this receiver. -/
def Heap.holdsMethod (h : Heap) (x code : Ref) (receiver : Option Ref) : Bool :=
  okAnd (h.get x) fun
    | ⟨k, .method ⟨"x", .bytecode c none, r⟩⟩ =>
      c == code && r == receiver && okAnd (h.requireSlot .call Slots.call k) (· == .method)
    | _ => false

theorem Heap.holdsMethod_callable {h : Heap} {x code : Ref} {receiver : Option Ref}
    (hx : h.holdsMethod x code receiver = true) :
    h.Callable x ⟨"x", .bytecode code none, receiver⟩ := by
  obtain ⟨o, ho, hx⟩ := okAnd_eq_true.mp hx
  split at hx
  case h_1 k c r =>
    simp only [Bool.and_eq_true, beq_iff_eq, okAnd_eq_true, exists_eq_right] at hx
    obtain ⟨⟨rfl, rfl⟩, hslot⟩ := hx
    exact ⟨k, ho, hslot⟩
  case h_2 => cases hx

/-- The two calls agree, and so the attribute of the instance is as good as the method. -/
theorem Vm.bound_call_agrees_attribute :
    ∃ vm r h', (Session.boot {} {} 0 ⟨0, 0⟩).Reaches (.idle vm) ∧ vm.heap.contains r = false ∧
      Outcome.AgreeBut r ⟨0, 45, 0⟩ ⟨0, 47, 0⟩
        (Machine.step ⟨vm, [], .calling ⟨0, 45, 0⟩ [⟨0, 46, 0⟩]⟩)
        (Machine.step ⟨vm, [], .calling ⟨0, 47, 0⟩ []⟩) ∧
      Vm.getAttr ⟨0, 46, 0⟩ "x" vm = .ok ⟨0, 48, 0⟩ { vm with heap := h' } ∧
      h'.Callable ⟨0, 48, 0⟩ ⟨"x", .bytecode ⟨0, 44, 0⟩ none, some ⟨0, 46, 0⟩⟩ := by
  have hrun : ((Session.follow? Session.boundMethod
      (Session.boot {} {} 0 ⟨0, 0⟩)).bind Session.idle?).any (fun vm =>
        vm.heap.holdsMethod ⟨0, 45, 0⟩ ⟨0, 44, 0⟩ none &&
        vm.heap.holdsMethod ⟨0, 47, 0⟩ ⟨0, 44, 0⟩ (some ⟨0, 46, 0⟩) &&
        vm.runsAfter ⟨0, 45, 0⟩ [⟨0, 46, 0⟩] && vm.runsAfter ⟨0, 47, 0⟩ [] &&
        okAnd (vm.heap.get ⟨0, 46, 0⟩) (·.cls == ⟨0, 43, 0⟩) &&
        okAnd (vm.heap.requireSlot .getAttr Slots.getAttr ⟨0, 43, 0⟩) (· == .object) &&
        okAnd (vm.heap.lookupMethod ⟨0, 43, 0⟩ "x") (· == some ⟨0, 45, 0⟩) &&
        (vm.heap.place ⟨nilRef 0, .nil⟩).1 == ⟨0, 48, 0⟩) = true := by
    decide +kernel
  obtain ⟨vm, hidle, hrun⟩ := (Option.any_eq_true _ _).mp hrun
  simp only [Bool.and_eq_true, okAnd_eq_true, beq_iff_eq, exists_eq_right] at hrun
  obtain ⟨⟨⟨⟨⟨⟨⟨hm, hb⟩, hruns⟩, hruns'⟩, o, ho, hcls⟩, hslot⟩, hlookup⟩, hfresh⟩ := hrun
  have hreaches : (Session.boot {} {} 0 ⟨0, 0⟩).ReachesBy (fun _ _ => False)
      (fun _ _ _ => True) (.idle vm) := Session.follow?_idle (fun _ _ _ _ => trivial) hidle
  have hreach := hreaches.reaches
  have hlive : vm.Live := (Session.orderly {} {} 0 ⟨0, 0⟩ hreach).live
  have hm := Heap.holdsMethod_callable hm
  obtain ⟨hcalls, hattributes⟩ := Vm.bound_call_agrees hlive
  obtain ⟨k, p⟩ := o
  obtain rfl : k = ⟨0, 43, 0⟩ := hcls
  obtain ⟨c, hc⟩ := Heap.cls_of_requireSlot hslot
  obtain ⟨cs, hl⟩ := hlive.heap.lineage _ c hc
  have hfound : cs.findSome? (fun c => c.methods.find? "x") = some ⟨0, 45, 0⟩ :=
    Except.ok.inj (hl.findInChain.symm.trans hlookup)
  obtain ⟨b, h', hattr, hplace, -, hcallable⟩ :=
    hattributes _ _ _ p cs "x" _ ho hslot hl hfound hm.payload
  obtain rfl : b = ⟨0, 48, 0⟩ := by
    have hplaced := congrArg Prod.fst hplace
    rw [← show _ = b from hplaced, ← hfresh]
    unfold Heap.place
    split <;> rfl
  rcases hcalls _ ⟨0, 46, 0⟩ _ _ [] [] hm rfl (Heap.holdsMethod_callable hb) with
    hsame | ⟨-, r, hnew, hagree⟩
  · -- the two new frames name different methods
    unfold Vm.runsAfter at hruns hruns'
    rw [hsame] at hruns'
    split at hruns
    case h_1 n hn =>
      rw [hn] at hruns'
      rw [beq_iff_eq] at hruns hruns'
      rw [hruns] at hruns'
      cases hruns'
    case h_2 => cases hruns
  · exact ⟨vm, r, h', hreach, hnew, hagree, hattr, hcallable⟩

end ObjectMachine
