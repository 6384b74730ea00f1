import ObjectMachine.Proofs.Scopes.Naming

/-!
# ObjectMachine.Proofs.Scopes.Steps

What a step can do to objects that are there before and after it.

A step collects at most once, and then evolves what is left. A reference that the collector has
freed names nothing for the rest of the step: its cell is a generation later. So an object that a
reference names before and after a step is the same one.

* `Heap.Sweeps` — the heap after the collector may have run.
* `Heap.Unfolds` — what a step makes of a heap.
* `Heap.Unfolds.get` — what becomes of an object that is named before and after.
* `Heap.Develops`, `Vm.Develops` — the same for `Payload.Becomes`, and of a task.
* `Vm.performIn_proceeds` — an instruction adds objects and changes what `Payload.Changes` says.
* `Vm.call_conduct`, `Vm.store_advances` — the instructions that are not tame.
* `Vm.Calls`, `Vm.call_cases` — what a call comes to.
-/

namespace ObjectMachine

open ObjectMachine.Action

/-! ## Collections -/

/-- The heap after the collector may have run. -/
def Heap.Sweeps (h h₁ : Heap) : Prop :=
  h₁ = h ∨ ∃ marks, h₁ = (h.sweep marks).2

namespace Heap.Sweeps

variable {h h₁ : Heap} {r : Ref} {o : Obj}

theorem freeList (hs : h.Sweeps h₁) (hf : h.FreeList) : h₁.FreeList := by
  rcases hs with rfl | ⟨marks, rfl⟩
  · exact hf
  · exact sweep_freeList h marks

/-- What is there after a collection was there before. -/
theorem get (hs : h.Sweeps h₁) (ho : h₁.get r = .ok o) : h.get r = .ok o := by
  rcases hs with rfl | ⟨marks, rfl⟩
  · exact ho
  · obtain ⟨hid, cell, hcell, hgen, hobj⟩ := get_eq_ok.mp ho
    rw [getElem?_sweep] at hcell
    split at hcell
    · obtain ⟨old, -, rfl⟩ := Option.map_eq_some_iff.mp hcell
      cases hobj
    · exact get_eq_ok.mpr ⟨hid.trans (sweep_frame h marks).id, cell, hcell, hgen, hobj⟩

theorem payload (hs : h.Sweeps h₁) {p : Payload} (hp : h₁.payload r = .ok p) :
    h.payload r = .ok p := by
  obtain ⟨k, hk⟩ := payload_eq_ok_iff.mp hp
  exact payload_eq_ok_iff.mpr ⟨k, hs.get hk⟩

theorem resolves (hs : h.Sweeps h₁) {f : ActiveFrame} {name : String} {v : Ref}
    (hv : h₁.Resolves f name v) : h.Resolves f name v :=
  hv.of_payload fun _ _ _ hp => hs.payload hp

/-- What was there before is still there, or its cell is of another generation. -/
theorem kept_or_freed (hs : h.Sweeps h₁) (ho : h.get r = .ok o) :
    h₁.get r = .ok o ∨
      ∃ cell : Cell, h₁.cells[r.cell]? = some cell ∧ cell.generation ≠ r.generation := by
  rcases hs with rfl | ⟨marks, rfl⟩
  · exact .inl ho
  · obtain ⟨hid, cell, hcell, hgen, hobj⟩ := get_eq_ok.mp ho
    by_cases hj : r.cell ∈ h.garbage marks
    · refine .inr ⟨⟨cell.generation + 1, none⟩, ?_, ?_⟩
      · rw [getElem?_sweep, if_pos hj, hcell]
        rfl
      · rw [hgen]
        simp
    · refine .inl (get_eq_ok.mpr ⟨?_, cell, ?_, hgen, hobj⟩)
      · exact hid.trans (sweep_frame h marks).id.symm
      · rw [getElem?_sweep, if_neg hj]
        exact hcell

end Heap.Sweeps

/-- What a step makes of a heap: the collector may have run, and `R` says what may have become of
the payloads of what it left. -/
def Heap.Unfolds (R : Ref → Payload → Payload → Prop) (h h' : Heap) : Prop :=
  ∃ h₁, h.Sweeps h₁ ∧ h₁.Turns R h'

theorem Heap.Unfolds.id {R : Ref → Payload → Payload → Prop} {h h' : Heap} (hu : h.Unfolds R h') :
    h'.id = h.id := by
  obtain ⟨h₁, hs, ht⟩ := hu
  rcases hs with rfl | ⟨marks, rfl⟩
  · exact ht.id
  · exact ht.id.trans (sweep_frame h marks).id

/-- An object that is named before and after a step is the same one. -/
theorem Heap.Unfolds.get {R : Ref → Payload → Payload → Prop} {h h' : Heap} {r : Ref} {o : Obj}
    (hu : h.Unfolds R h') (ho : h.get r = .ok o) (hr : h'.contains r = true) :
    ∃ p, h'.get r = .ok ⟨o.cls, p⟩ ∧ R r o.payload p := by
  obtain ⟨h₁, hs, ht⟩ := hu
  rcases hs.kept_or_freed ho with hkept | ⟨cell, hcell, hgen⟩
  · exact ht.kept r o hkept
  · -- the cell of a freed object is a generation later, and stays so
    obtain ⟨cell', hcell', hgen'⟩ := ht.generations r.cell cell hcell
    obtain ⟨o', ho'⟩ := contains_iff.mp hr
    obtain ⟨-, cell'', hcell'', hgen'', -⟩ := get_eq_ok.mp ho'
    obtain rfl := Option.some.inj (hcell'.symm.trans hcell'')
    exact absurd (hgen'.symm.trans hgen'') hgen

/-- The collector may have run, and what it left has evolved. -/
abbrev Heap.Develops (A : Ref → Prop) : Heap → Heap → Prop :=
  Heap.Unfolds fun r p q => p.Becomes (A r) q

namespace Heap.Develops

variable {A B : Ref → Prop} {h h' : Heap} {r : Ref} {p : Payload}

theorem mono (hd : h.Develops A h') (hAB : ∀ r, A r → B r) : h.Develops B h' := by
  obtain ⟨h₁, hs, he⟩ := hd
  exact ⟨h₁, hs, Evolves.mono he hAB⟩

theorem payload (hd : h.Develops A h') (hp : h.payload r = .ok p) (hr : h'.contains r = true) :
    ∃ q, h'.payload r = .ok q ∧ p.Becomes (A r) q := by
  obtain ⟨k, hget⟩ := payload_eq_ok_iff.mp hp
  obtain ⟨q, hq, hpq⟩ := hd.get hget hr
  exact ⟨q, payload_eq_ok_iff.mpr ⟨k, hq⟩, hpq⟩

theorem payload_lasting (hd : h.Develops A h') (hp : h.payload r = .ok p)
    (hr : h'.contains r = true) (hlasting : p.Lasting (A r)) : h'.payload r = .ok p := by
  obtain ⟨q, hq, hpq⟩ := hd.payload hp hr
  rwa [hpq.eq_of_lasting hlasting] at hq

/-- A name stands for the same variable as long as the frame and its module are there. -/
theorem resolves (hd : h.Develops A h') {f : ActiveFrame} {name : String} {v : Ref}
    (hframe : h'.contains f.frame = true) (hmodule : ∀ r ∈ f.module, h'.contains r = true)
    (hv : h.Resolves f name v) : h'.Resolves f name v := by
  cases hv with
  | frame hfr hvar => exact .frame (hd.payload_lasting hfr hframe trivial) hvar
  | @module p r m hp hnone hr hm hvar =>
    obtain ⟨q, hq, hpq⟩ := hd.payload hp hframe
    obtain ⟨n, hn, hmn⟩ := hd.payload hm (hmodule r hr)
    have hlast : ∀ fr, q = .frame fr → fr.var? name = none := by
      rintro fr rfl
      cases hpq
      exact hnone fr rfl
    cases hmn with
    | same => exact .module hq hlast hr hn hvar
    | module _ hlocals => exact .module hq hlast hr hn (hlocals name v hvar)

end Heap.Develops

/-- What a step makes of a task. -/
structure Vm.Develops (A : Ref → Prop) (v v' : Vm) : Prop where
  heap : v.heap.Develops A v'.heap
  frames : ∀ f' ∈ v'.frames, (∃ f ∈ v.frames, f'.still = f.still) ∨ f'.Built v'.heap

namespace Vm.Develops

variable {A B : Ref → Prop} {v u v' : Vm}

theorem mono (hd : v.Develops A v') (hAB : ∀ r, A r → B r) : v.Develops B v' :=
  ⟨hd.heap.mono hAB, hd.frames⟩

/-- The collector may run first. -/
theorem of_advances (hs : v.heap.Sweeps u.heap) (hframes : u.frames = v.frames)
    (h : u.Advances A v') : v.Develops A v' :=
  ⟨⟨u.heap, hs, h.heap⟩, fun f' hf' => .inl (hframes ▸ h.frames f' hf')⟩

theorem of_enters {g : ActiveFrame} (hs : v.heap.Sweeps u.heap) (hframes : u.frames = v.frames)
    (h : u.Enters g v') : v.Develops (v'.heap.BindsParam g.method) v' := by
  refine ⟨⟨u.heap, hs, h.heap⟩, fun f' hf' => ?_⟩
  rcases h.frames f' hf' with rfl | hold
  · exact .inr h.built
  · exact .inl (hframes ▸ hold)

theorem of_works (h : v.Works Eq v') : v.Develops noVar v' :=
  .of_advances (.inl rfl) rfl ⟨h.heap.mono fun _ p _ heq => heq ▸ .same p, h.frames⟩

theorem of_same {w : Vm} (hd : v.Develops A w) (hs : v'.Same w) : v.Develops A v' := by
  obtain ⟨heap, frames⟩ := hd
  exact ⟨hs.heap ▸ heap, by rw [hs.heap, hs.frames]; exact frames⟩

end Vm.Develops

namespace Vm

variable {vm : Vm}

section Trace

variable {α : Type} (on : Channels → Bool) (channel : String) (text : Vm → String) (x : α)

theorem trace_heap :
    (final ((do trace on channel text; return x : Action α) vm)).heap = vm.heap := by
  show (if on vm.config.trace then _ else vm).heap = vm.heap
  split <;> rfl

theorem trace_frames :
    (final ((do trace on channel text; return x : Action α) vm)).frames = vm.frames := by
  show (if on vm.config.trace then _ else vm).frames = vm.frames
  split <;> rfl

end Trace

/-- Where the collector runs, nothing else is done. -/
theorem collect_sweeps (vm : Vm) :
    vm.heap.Sweeps (final (collect vm)).heap ∧ (final (collect vm)).frames = vm.frames := by
  unfold collect Heap.collect
  cases vm.heap.marks vm.roots with
  | error e => exact ⟨.inl rfl, rfl⟩
  | ok marks =>
    dsimp only
    rw [trace_heap, trace_frames]
    exact ⟨.inr ⟨marks, rfl⟩, rfl⟩

theorem tick_sweeps {u : Vm} (h : tick vm = .ok () u) :
    vm.heap.Sweeps u.heap ∧ u.frames = vm.frames := by
  let v : Vm := { vm with ticks := vm.ticks + 1 }
  have hrun : tick vm =
      (if v.ticks % max v.config.gcCheckInterval 1 == 0 && v.heap.shouldCollect then
        collect >>= fun _ => pure () else pure () : Action Unit) v := rfl
  rw [hrun] at h
  split at h
  · obtain ⟨n, w, hcollect, h⟩ := bind_eq_ok.mp h
    have hswept := collect_sweeps v
    rw [hcollect] at hswept
    cases h
    exact hswept
  · obtain ⟨-, rfl⟩ := pure_eq_ok.mp h
    exact ⟨.inl rfl, rfl⟩

/-! ## Instructions -/

/-- What an interpreter loop does with the way on after an instruction. -/
def goOn (floor : Nat) : Flow → Action Flow
  | .leave v => returnFrom floor v
  | flow => return flow

instance goOn_adds (floor : Nat) (flow : Flow) : Adds (goOn floor flow) := by
  unfold goOn
  split <;> infer_instance

theorem performIn_eq (floor : Nat) :
    performIn floor = fetch >>= fun next =>
      (match next with
      | none => return .leave (← nil)
      | some i =>
        match i.op? with
        | some op => execute op i
        | none => top >>= fun f => Action.fatal (.invalidOpcode i.opcode f.unit.name)) >>=
      goOn floor := by
  unfold performIn perform
  rw [bind_assoc]
  congr 1

/-- An instruction gives no variable another name, and changes what `Payload.Changes` says. -/
theorem performIn_proceeds (hf : vm.heap.FreeList) (floor : Nat) :
    vm.Proceeds (Payload.Changes True) (final (performIn floor vm)) := by
  rw [performIn_eq]
  have hfetch := Acts.works (R := Eq) (a := fetch) vm hf
  refine .bind (hfetch.weaken (R := Payload.Changes True)).toProceeds fun next vm₁ hrun => ?_
  have hw := hfetch.of_ok hrun
  have hf₁ := hw.heap.freeList
  refine Proceeds.after ?_ hw.toProceeds
  cases next with
  | none => exact (Acts.works (R := Payload.Changes True) vm₁ hf₁).toProceeds
  | some i =>
    dsimp only
    cases i.op? with
    | none => exact (Acts.works (R := Payload.Changes True) vm₁ hf₁).toProceeds
    | some op => exact (execute_proceeds hf₁ op i).bindAdds

/-- A call of a method with bytecode enters it; any other call is left to the machine. -/
theorem call_conduct {u : Vm} (hf : u.heap.FreeList) (floor : Nat) (i : Instr) :
    u.Conduct ((execute .call i >>= goOn floor) u) := by
  unfold execute
  dsimp only
  rw [bind_assoc]
  refine .bind _ hf fun operands vm _ hf => ?_
  cases operands with
  | nil => exact .stays (.refl hf)
  | cons callee args =>
    dsimp only
    rw [bind_assoc]
    refine .bind _ hf fun b vm _ hf => ?_
    cases b with
    | false => exact .stays (.refl hf)
    | true =>
      simp only [if_true, bind_assoc]
      refine .bind _ hf fun _ vm _ hf => ?_
      exact (enter_conduct hf callee args).andThen fun _ vm => ⟨_, _, rfl, rfl, rfl⟩

theorem execute_store (floor : Nat) (i : Instr) :
    (execute .storeName i >>= goOn floor) =
      pop >>= fun v => nameAt i.arg1 >>= fun name => storeName name v >>= fun _ => pure .next := by
  unfold execute
  simp only [bind_assoc]
  rfl

/-- A store assigns what the name stands for. -/
theorem store_advances {u : Vm} (hf : u.heap.FreeList) (floor : Nat) (i : Instr) :
    u.Advances (fun r => ∃ f name, u.frames.back? = some f ∧
        f.unit.names[i.arg1.toNat]? = some name ∧ u.heap.Resolves f name r)
      (final ((execute .storeName i >>= goOn floor) u)) := by
  rw [execute_store]
  refine .bind ((Tame.advances (a := pop) u hf).mono fun _ => False.elim) fun v u₁ hpop => ?_
  have hadv := Tame.of_ok hf hpop
  obtain ⟨-, rfl⟩ := pop_eq_ok hpop
  refine .bind ?_ fun name u₂ hname => ?_
  · rw [Reads.state]
    exact hadv.mono fun _ => False.elim
  obtain ⟨⟨f, hback, hfound⟩, rfl⟩ := nameAt_eq_ok.mp hname
  have hstore := (storeName_advances hadv.heap.freeList name v).mono fun r hr => by
    obtain ⟨⟨g, hg, hres⟩, -⟩ := scopedVar?_eq_some.mp hr
    obtain rfl := Option.some.inj (hback.symm.trans hg)
    exact (⟨f, name, hback, hfound, hres⟩ : ∃ f name, u.frames.back? = some f ∧
        f.unit.names[i.arg1.toNat]? = some name ∧ u.heap.Resolves f name r)
  have hboth := (hadv.mono fun _ => False.elim).trans hstore
  exact .bind hboth fun _ u₃ hrun => hboth.of_ok hrun

/-- The next instruction of the running frame, which then stands behind it. -/
theorem fetch_eq_some {u u₁ : Vm} {i : Instr} (h : fetch u = .ok (some i) u₁) :
    ∃ f, u.frames.back? = some f ∧ f.unit.code[f.ip]? = some i ∧
      u₁ = { u with frames := u₁.frames } ∧ u₁.frames.back? = some { f with ip := f.ip + 1 } := by
  unfold fetch at h
  obtain ⟨f, htop, h⟩ := Reads.bind_eq_ok h
  obtain ⟨hback, -⟩ := top_eq_ok.mp htop
  cases hi : f.unit.code[f.ip]? with
  | none =>
    rw [hi] at h
    cases h
  | some j =>
    rw [hi] at h
    obtain ⟨_, u₂, hgoto, h⟩ := bind_eq_ok.mp h
    cases hgoto
    cases h
    refine ⟨f, hback, hi, rfl, ?_⟩
    rw [Array.back?_eq_getElem?] at hback ⊢
    simp [Array.getElem?_modify, hback]

/-- An instruction enters a frame at most, or it is a store. -/
theorem performIn_cases {u : Vm} (hf : u.heap.FreeList) (floor : Nat) :
    u.Conduct (performIn floor u) ∨
      ∃ f i, u.frames.back? = some f ∧ f.unit.code[f.ip]? = some i ∧ i.op? = some .storeName ∧
        u.Advances (fun r => ∃ name, f.unit.names[i.arg1.toNat]? = some name ∧
          u.heap.Resolves f name r) (final (performIn floor u)) := by
  rw [performIn_eq]
  cases hfetch : fetch u with
  | error e u₁ =>
    have hadv := Tame.advances (a := fetch) u hf
    rw [hfetch] at hadv
    rw [bind_error hfetch]
    exact .inl (.stays hadv)
  | ok next u₁ =>
    rw [bind_ok hfetch]
    have hadv := Tame.of_ok hf hfetch
    have hf₁ := hadv.heap.freeList
    have hstays : ∀ {a : Action Flow} [Tame a], u.Conduct ((a >>= goOn floor) u₁) := fun {a} _ =>
      .stays (hadv.trans (Tame.advances (a := a >>= goOn floor) u₁ hf₁))
    cases next with
    | none => exact .inl hstays
    | some i =>
      dsimp only
      cases hop : i.op? with
      | none => exact .inl hstays
      | some op =>
        dsimp only
        by_cases hstore : op = .storeName
        · subst hstore
          obtain ⟨f, hback, hi, hstate, hback₁⟩ := fetch_eq_some hfetch
          refine .inr ⟨f, i, hback, hi, hop, ?_⟩
          refine (hadv.mono fun _ => False.elim).trans ((store_advances hf₁ floor i).mono ?_)
          rintro r ⟨g, name, hg, hname, hres⟩
          obtain rfl := Option.some.inj (hback₁.symm.trans hg)
          rw [hstate] at hres
          exact ⟨name, hname, hres.of_eq rfl rfl⟩
        · by_cases hcall : op = .call
          · subst hcall
            rcases call_conduct hf₁ floor i with h | ⟨hout, h⟩ | ⟨hout, he⟩
            · exact .inl (.stays (hadv.trans h))
            · exact .inl (.enters hout (h.after hadv))
            · exact .inl (.ends hout he)
          · have := Acts.execute hstore hcall i
            exact .inl hstays

/-! ## Calls -/

/-- The collector runs first. -/
theorem collect_bind_develops {α : Type} (hf : vm.heap.FreeList) (f : Nat → Action α)
    [hfs : ∀ n, Tame (f n)] : vm.Develops noVar (final ((collect >>= f) vm)) := by
  obtain ⟨hs, hframes⟩ := collect_sweeps vm
  cases hrun : collect vm with
  | ok n u =>
    rw [hrun] at hs hframes
    rw [bind_ok hrun]
    exact .of_advances hs hframes ((hfs n).advances u (hs.freeList hf))
  | error e u =>
    rw [hrun] at hs hframes
    rw [bind_error hrun]
    exact .of_advances hs hframes (.refl (hs.freeList hf))

/-- A native function that collects, or one that does not. -/
theorem runNative_develops (hf : vm.heap.FreeList) (f : Native) (args : List Ref) :
    vm.Develops noVar (final (runNative f args vm)) := by
  by_cases hcollect : f = .collect
  · subst hcollect
    cases args with
    | nil => exact collect_bind_develops hf fun freed => do
      return Reply.value (← newLength freed)
    | cons r rest => exact .of_advances (.inl rfl) rfl (.refl hf)
  · have htame : Tame (runNative f args) := by
      by_cases hslot : f = .slotSet
      · subst hslot
        have := Acts.runSlotSet False args
        infer_instance
      · have := Acts.runNative False hcollect hslot args
        infer_instance
    exact .of_advances (.inl rfl) rfl (htame.advances vm hf)

/-- What a call comes to: a native function, a method with bytecode, or something that only adds
objects. -/
inductive Calls (vm : Vm) (callee : Ref) (args : List Ref) : Prop where
  | native {m : Method} {f : Native} : vm.heap.payload callee = .ok (.method m) →
      m.body = .native f → call callee args vm = runNative f (m.receiver.toList ++ args) vm →
      Calls vm callee args
  | enters : call callee args vm =
      (enterLoop callee args >>= fun loop => pure (Reply.entered loop.1 loop.2)) vm →
      Calls vm callee args
  | adds : vm.Works Eq (final (call callee args vm)) → Calls vm callee args

theorem calls (hf : vm.heap.FreeList) (callee : Ref) (args : List Ref) : vm.Calls callee args := by
  rcases Reads.cases (require .call Slots.call callee) vm with ⟨f, hf'⟩ | ⟨e, hf'⟩
  · cases f with
    | cls =>
      have hcall : call callee args vm = construct callee args vm := by
        rw [call, bind_ok hf']
      exact .adds (hcall ▸ Acts.works vm hf)
    | arguments =>
      have hcall : call callee args vm =
          (do return Reply.value (← newArray args) : Action _) vm := by
        rw [call, bind_ok hf']
      exact .adds (hcall ▸ Acts.works vm hf)
    | method =>
      have hcall : call callee args vm = callMethod callee args vm := by
        rw [call, bind_ok hf']
      rcases Reads.cases (payload callee) vm with ⟨p, hp⟩ | ⟨e, hp⟩
      · rw [callMethod, bind_ok hp] at hcall
        cases p with
        | method m =>
          dsimp only at hcall
          cases hbody : m.body with
          | native f =>
            rw [hbody] at hcall
            exact .native (payload_eq_ok.mp hp).1 hbody hcall
          | _ =>
            rw [hbody] at hcall
            exact .enters hcall
        | _ => exact .adds (hcall ▸ Acts.works (a := mismatch "method" callee) vm hf)
      · rw [callMethod, bind_error hp] at hcall
        exact .adds (hcall ▸ .refl hf)
  · have hcall : call callee args vm = .error e vm := by
      rw [call, bind_error hf']
    exact .adds (hcall ▸ .refl hf)

/-- A call enters a frame at most, or it collects. -/
theorem call_cases (hf : vm.heap.FreeList) (callee : Ref) (args : List Ref) :
    vm.Conduct (call callee args vm) ∨ vm.Develops noVar (final (call callee args vm)) := by
  cases calls hf callee args with
  | native _ _ hrun =>
    rw [hrun]
    exact .inr (runNative_develops hf _ _)
  | enters hrun =>
    rw [hrun]
    exact .inl ((enterLoop_conduct hf callee args).andThen fun _ vm => ⟨_, _, rfl, rfl, rfl⟩)
  | adds hworks => exact .inr (.of_works hworks)

end Vm

end ObjectMachine
