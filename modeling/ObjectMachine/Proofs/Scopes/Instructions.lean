import ObjectMachine.Proofs.Scopes.Moves

/-!
# ObjectMachine.Proofs.Scopes.Instructions

The instructions that capture, store and load variables, as steps of a machine.

* `Machine.MakesClosure`, `Machine.Stores`, `Machine.Loads` — a machine at such an instruction.
* `Machine.MakesClosure.captures` — a closure captures what its free names stand for.
* `Machine.Stores.payload` — after a store the variable has the value.
* `Machine.Loads.next` — a load answers the value of the variable, if it has one.
-/

namespace ObjectMachine

open ObjectMachine.Action

/-! ## Machines at an instruction -/

/-- A step in which the running frame makes a closure. -/
structure Machine.MakesClosure (m m' : Machine) (f : ActiveFrame) (closure : Ref) : Prop where
  stands : ∃ i, m.Stands f .makeClosure i
  step : m.step = .next m'
  running : m'.mode = .running
  made : m'.vm.stack.back? = some closure

/-- A step in which the running frame stores a value to a name. -/
structure Machine.Stores (m m' : Machine) (name : String) (value : Ref) : Prop where
  stands : ∃ f i, m.Stands f .storeName i ∧ f.unit.names[i.arg1.toNat]? = some name
  operand : m.vm.stack.back? = some value
  step : m.step = .next m'
  running : m'.mode = .running

/-- The running frame is about to load a name. -/
def Machine.Loads (m : Machine) (name : String) : Prop :=
  ∃ f i, m.Stands f .pushName i ∧ f.unit.names[i.arg1.toNat]? = some name

/-! ## What a name stands for, after the collector may have run -/

theorem NameMap.mem_values {α : Type} {m : NameMap α} {name : String} {v : α}
    (h : m.find? name = some v) : v ∈ m.values := by
  obtain ⟨before, after, heq, -⟩ := List.lookup_eq_some_iff.mp h
  simp [values, heq]

namespace Heap

variable {h h₁ : Heap}

theorem Remains.payload (hr : h.Remains h₁) {r : Ref} {p : Payload} (hp : h.payload r = .ok p)
    (hlive : h₁.contains r = true) : h₁.payload r = .ok p := by
  obtain ⟨k, hget⟩ := payload_eq_ok_iff.mp hp
  obtain ⟨o, ho⟩ := contains_iff.mp hlive
  have heq := hr.get r o ho
  rw [hget] at heq
  cases heq
  exact payload_eq_ok_iff.mpr ⟨k, ho⟩

theorem Remains.resolves (hr : h.Remains h₁) {f : ActiveFrame} {name : String} {v : Ref}
    (hlive : ∀ r ∈ f.frame :: f.method :: f.code :: f.module.toList, h₁.contains r = true)
    (hv : h.Resolves f name v) : h₁.Resolves f name v := by
  refine hv.of_payload fun r p hmem hp => hr.payload hp (hlive r ?_)
  rcases List.mem_cons.mp hmem with rfl | hmem
  · exact List.mem_cons_self
  · simp only [List.mem_cons, hmem, or_true]

theorem Remains.resolves_back (hr : h.Remains h₁) {f : ActiveFrame} {name : String} {v : Ref}
    (hv : h₁.Resolves f name v) : h.Resolves f name v := by
  refine hv.of_payload fun r p _ hp => ?_
  obtain ⟨k, hk⟩ := payload_eq_ok_iff.mp hp
  exact payload_eq_ok_iff.mpr ⟨k, hr.get r _ hk⟩

theorem Closed.refs_live (hc : h.Closed) {r s : Ref} {p : Payload} (hp : h.payload r = .ok p)
    (hs : s ∈ p.refs) : h.contains s = true := by
  obtain ⟨k, hget⟩ := payload_eq_ok_iff.mp hp
  exact (hc r _ hget).2 s hs

/-- What a name stands for is there. -/
theorem Closed.resolves_live (hc : h.Closed) {f : ActiveFrame} {name : String} {v : Ref}
    (hv : h.Resolves f name v) : h.contains v = true := by
  cases hv with
  | @frame fr hfr hvar =>
    refine hc.refs_live hfr ?_
    unfold Frame.var? at hvar
    simp only [Payload.refs, Payload.markFn?, MarkFn.targets, List.mem_cons, List.mem_append]
    split at hvar
    · obtain rfl := Option.some.inj hvar
      exact .inr (.inl (NameMap.mem_values ‹_›))
    · exact .inr (.inr (NameMap.mem_values hvar))
  | module hp hnone hmod hm hvar =>
    refine hc.refs_live hm ?_
    simpa [Payload.refs, Payload.markFn?, MarkFn.targets] using NameMap.mem_values hvar

end Heap

/-! ## Instructions -/

/-- A state in which the running frame stands behind an instruction that it is performing. -/
structure Vm.Performs (vm : Vm) (f : ActiveFrame) (u : Vm) : Prop where
  moves : vm.Moves Eq u
  remains : vm.heap.Remains u.heap
  sound : u.heap.Sound
  stack : u.stack = vm.stack
  globals : u.globals = vm.globals
  classes : u.classes = vm.classes
  frame : u.frames.back? = some { f with ip := f.ip + 1 }
  frame_live : ∀ r ∈ f.frame :: f.method :: f.code :: f.module.toList, u.heap.contains r = true

theorem Vm.fetch_run {vm : Vm} {f : ActiveFrame} {i : Instr} (hf : vm.frames.back? = some f)
    (hi : f.unit.code[f.ip]? = some i) : ∃ u, fetch vm = .ok (some i) u := by
  unfold fetch
  rw [bind_ok (top_eq_ok.mpr ⟨hf, rfl⟩)]
  rw [hi]
  exact ⟨_, rfl⟩

namespace Machine

variable {m m' : Machine} {f : ActiveFrame} {op : Op} {i : Instr}

/-- Where a machine goes after an instruction of its innermost loop. -/
def afterFlow (konts outer : List Kont) (flow : Flow) (vm : Vm) : Machine :=
  match flow with
  | .next => ⟨vm, konts, .running⟩
  | .leave v => ⟨vm, outer, .returning v⟩
  | .call callee args n => ⟨vm, .operands n :: konts, .calling callee args⟩
  | .wait request n => ⟨vm, .operands n :: konts, .waiting request⟩

/-- A step at an instruction performs it, after the collector may have run. -/
theorem Stands.step_eq (hs : m.Stands f op i) (hlive : m.vm.Live) :
    ∃ u floor outer, m.vm.Performs f u ∧ m.step =
      continueWith (Vm.execute op i >>= Vm.goOn floor) u m.konts (afterFlow m.konts outer) := by
  obtain ⟨floor, base, outer, hkonts⟩ := hs.loop
  obtain ⟨w, htick, hswept⟩ := Vm.tick_swept hlive.heap hlive.roots
  have hback : w.frames.back? = some f := by
    rw [(Vm.tick_sweeps htick).2]
    exact hs.frame
  obtain ⟨u, hfetch⟩ := Vm.fetch_run hback hs.instr
  obtain ⟨g, hg, -, hstate, hbehind⟩ := Vm.fetch_eq_some hfetch
  obtain rfl := Option.some.inj (hback.symm.trans hg)
  have hheap : u.heap = w.heap := by rw [hstate]
  refine ⟨u, floor, outer, ⟨?_, ?_, ?_, ?_, ?_, ?_, hbehind, ?_⟩, ?_⟩
  · exact ⟨w, hswept, (Vm.tick_sweeps htick).1,
      (Acts.of_ok hswept.sound.freeList hfetch).toProceeds⟩
  · rw [hheap]
    exact hswept.remains
  · rw [hheap]
    exact hswept.sound
  · rw [hstate, hswept.state]
  · rw [hstate, hswept.state]
  · rw [hstate, hswept.state]
  · rw [hheap]
    exact fun r hr => hswept.live r
      (Vm.mem_roots_frame (Array.mem_toList_iff.mpr (Array.mem_of_back? hs.frame)) hr)
  · have hrun : Vm.stepLoop floor m.vm = (Vm.execute op i >>= Vm.goOn floor) u := by
      rw [Vm.stepLoop_after floor htick, Vm.performIn_eq, bind_ok hfetch]
      simp only [hs.op]
    rw [step, hs.mode, hkonts]
    exact continueWith_eq hrun _ _

/-- A step that leaves the machine running has performed the instruction. -/
theorem Stands.performed (hs : m.Stands f op i) (hlive : m.vm.Live) (hstep : m.step = .next m')
    (hmode : m'.mode = .running) :
    ∃ u floor, m.vm.Performs f u ∧
      (Vm.execute op i >>= Vm.goOn floor) u = .ok .next m'.vm := by
  obtain ⟨u, floor, outer, hperforms, heq⟩ := hs.step_eq hlive
  rw [hstep] at heq
  unfold continueWith at heq
  refine ⟨u, floor, hperforms, ?_⟩
  cases hrun : (Vm.execute op i >>= Vm.goOn floor) u with
  | ok flow vm =>
    rw [hrun] at heq
    cases flow with
    | next =>
      cases heq
      rfl
    | _ =>
      cases heq
      cases hmode
  | error e vm =>
    rw [hrun] at heq
    cases e with
    | raised e =>
      cases heq
      cases hmode
    | fatal e => cases heq
    | crashed => cases heq

/-- A closure has captured what its free names stood for in the frame. -/
theorem MakesClosure.captures {closure : Ref} (h : m.MakesClosure m' f closure)
    (hlive : m.vm.Live) :
    ∃ code c bindings, m'.vm.heap.payload code = .ok (.code c) ∧
      m'.vm.heap.payload closure =
        .ok (.method ⟨c.unit.name, .closure code f.module bindings, none⟩) ∧
      (∀ name ∈ c.unit.freevars, ∃ v, bindings.find? name = some v ∧
        m.vm.heap.Resolves f name v) ∧
      m'.vm.frames.back? = some { f with ip := f.ip + 1 } := by
  obtain ⟨i, hs⟩ := h.stands
  obtain ⟨u, floor, hperforms, hrun⟩ := hs.performed hlive h.step h.running
  have heq : (Vm.execute .makeClosure i >>= Vm.goOn floor) =
      Vm.constant i.arg1 >>= fun code => Vm.makeClosure code >>= fun r => Vm.push r >>= fun _ =>
        pure .next := by
    unfold Vm.execute
    simp only [bind_assoc]
    rfl
  rw [heq] at hrun
  obtain ⟨code, -, hrun⟩ := Reads.bind_eq_ok hrun
  obtain ⟨r, u₁, hmake, hrun⟩ := bind_eq_ok.mp hrun
  unfold Vm.makeClosure at hmake
  obtain ⟨unit, hunit, hmake⟩ := Reads.bind_eq_ok hmake
  obtain ⟨⟨c, hc, rfl⟩, -⟩ := Vm.codeUnit_eq_ok.mp hunit
  obtain ⟨g, htop, hmake⟩ := Reads.bind_eq_ok hmake
  obtain ⟨hback, -⟩ := Vm.top_eq_ok.mp htop
  obtain rfl := Option.some.inj (hperforms.frame.symm.trans hback)
  obtain ⟨bindings, hcapture, hmake⟩ := Reads.bind_eq_ok hmake
  have hf := hperforms.sound.freeList
  have hadv := Tame.of_ok hf hmake
  unfold Vm.newMethod at hmake
  rw [Vm.new_eq] at hmake
  cases hmake
  have hvm : m'.vm = _ := (EStateM.Result.ok.inj hrun).2.symm
  have hmade := h.made
  rw [hvm] at hmade ⊢
  obtain rfl : _ = closure := by simpa using hmade
  refine ⟨code, c, bindings, hadv.heap.payload_lasting hc trivial, ?_, ?_, hperforms.frame⟩
  · exact Heap.payload_eq_ok_iff.mpr ⟨_, (Heap.get_place hf _ _).trans (if_pos rfl)⟩
  · intro name hname
    obtain ⟨v, hv, hscope⟩ := Vm.captureVars_find? hcapture name (.inl hname)
    obtain ⟨⟨g, hg, hres⟩, -⟩ := Vm.scopedVar?_eq_some.mp hscope
    obtain rfl := Option.some.inj (hback.symm.trans hg)
    exact ⟨v, hv, hperforms.remains.resolves_back (hres.of_eq rfl rfl)⟩

/-- After a store the variable has the value. -/
theorem Stores.payload {name : String} {value v : Ref} (h : m.Stores m' name value)
    (hlive : m.vm.Live) (hv : Vm.scopedVar? name m.vm = .ok (some v) m.vm) :
    m'.vm.heap.payload v = .ok (.var (some value)) := by
  obtain ⟨f, i, hs, hname⟩ := h.stands
  obtain ⟨u, floor, hperforms, hrun⟩ := hs.performed hlive h.step h.running
  obtain ⟨⟨g, hg, hres⟩, -⟩ := Vm.scopedVar?_eq_some.mp hv
  obtain rfl := Option.some.inj (hs.frame.symm.trans hg)
  rw [Vm.execute_store] at hrun
  obtain ⟨x, w, hpop, hrun⟩ := bind_eq_ok.mp hrun
  obtain ⟨hx, hw⟩ := Vm.pop_eq_ok hpop
  obtain rfl : x = value := by
    rw [hperforms.stack, h.operand] at hx
    exact (Option.some.inj hx).symm
  obtain ⟨hheap, hback⟩ :
      w.heap = u.heap ∧ w.frames.back? = some { f with ip := f.ip + 1 } := by
    rw [hw]
    exact ⟨rfl, hperforms.frame⟩
  obtain ⟨other, hother, hrun⟩ := Reads.bind_eq_ok hrun
  obtain ⟨⟨g, hg, hfound⟩, -⟩ := Vm.nameAt_eq_ok.mp hother
  obtain rfl := Option.some.inj (hback.symm.trans hg)
  obtain rfl : other = name := Option.some.inj (hfound.symm.trans hname)
  obtain ⟨_, w', hstore, hrun⟩ := bind_eq_ok.mp hrun
  obtain ⟨-, rfl⟩ := pure_eq_ok.mp hrun
  have hres' := (hperforms.remains.resolves hperforms.frame_live hres).of_eq
    (g := { f with ip := f.ip + 1 }) rfl rfl
  rw [← hheap] at hres'
  unfold Vm.storeName at hstore
  rw [bind_ok (Vm.scopedVar?_eq_some.mpr ⟨⟨_, hback, hres'⟩, rfl⟩)] at hstore
  obtain ⟨⟨old, hold⟩, hwritten⟩ := Vm.writeVar_eq_ok hstore
  rw [hwritten]
  exact Heap.payload_update_self hold

/-- A load answers the value of the variable. -/
theorem Loads.next {name : String} {value v : Ref} (h : m.Loads name) (hlive : m.vm.Live)
    (hv : Vm.scopedVar? name m.vm = .ok (some v) m.vm)
    (hvalue : m.vm.heap.payload v = .ok (.var (some value))) :
    ∃ m', m.step = .next m' ∧ m'.mode = .running ∧ m'.vm.stack.back? = some value := by
  obtain ⟨f, i, hs, hname⟩ := h
  obtain ⟨u, floor, outer, hperforms, hstep⟩ := hs.step_eq hlive
  obtain ⟨⟨g, hg, hres⟩, -⟩ := Vm.scopedVar?_eq_some.mp hv
  obtain rfl := Option.some.inj (hs.frame.symm.trans hg)
  have hres' := hperforms.remains.resolves hperforms.frame_live hres
  have hscope := Vm.scopedVar?_eq_some.mpr
    ⟨⟨_, hperforms.frame, hres'.of_eq rfl rfl⟩, rfl⟩
  have hvalue' := hperforms.remains.payload hvalue
    (hperforms.sound.closed.resolves_live hres')
  have hread : Vm.readVar v u = .ok (some value) u := by
    unfold Vm.readVar
    rw [bind_ok (Vm.payload_eq_ok.mpr ⟨hvalue', rfl⟩)]
    rfl
  have hload : Vm.loadName name u = .ok value u := by
    unfold Vm.loadName
    rw [bind_ok hscope]
    dsimp only
    rw [bind_ok hread]
    rfl
  have hrun : (Vm.execute .pushName i >>= Vm.goOn floor) u =
      .ok .next { u with stack := u.stack.push value } := by
    have heq : (Vm.execute .pushName i >>= Vm.goOn floor) =
        Vm.nameAt i.arg1 >>= fun name => Vm.loadName name >>= fun r => Vm.push r >>= fun _ =>
          pure .next := by
      unfold Vm.execute
      simp only [bind_assoc]
      rfl
    rw [heq, bind_ok (Vm.nameAt_eq_ok.mpr ⟨⟨_, hperforms.frame, hname⟩, rfl⟩), bind_ok hload]
    rfl
  refine ⟨_, hstep.trans (continueWith_ok hrun), rfl, ?_⟩
  simp [afterFlow]

end Machine

end ObjectMachine
