import ObjectMachine.Proofs.Machine.Balance
import ObjectMachine.Proofs.Scopes.Bindings
import ObjectMachine.Proofs.Scopes.Names

/-!
# ObjectMachine.Proofs.Scopes.Activations

Frames and the variables they share with the closures that they run.

* `ActiveFrame.Built` — a running frame has the code, the module and the captured variables of its
  method.
* `Vm.makeLocals_find?`, `Vm.freeVars_find?` — a captured name keeps its variable, be it a local or
  not.
* `Heap.BindsParam` — the variables that are assigned when a method is entered: captured parameters.
* `Vm.Enters` — what entering a method does.
* `Vm.enter_conduct` — entering a method does that, or fails and assigns nothing.
-/

namespace ObjectMachine

open ObjectMachine.Action

/-! ## The variables of a frame -/

namespace Vm

variable {vm vm' : Vm} {bindings locals : NameMap Ref}

theorem newVar_fresh {value : Option Ref} {var : Ref} (hf : vm.heap.FreeList)
    (h : newVar value vm = .ok var vm') : vm.heap.contains var = false := by
  unfold newVar at h
  rw [new_eq] at h
  cases h
  exact Heap.place_fresh hf _

/-- The first local gets its captured variable, or a new one. -/
theorem makeLocals_cons {first : String} {rest : List String} {made : NameMap Ref}
    (hf : vm.heap.FreeList) (h : makeLocals bindings (first :: rest) locals vm = .ok made vm') :
    ∃ var vm₁, vm.Advances noVar vm₁ ∧
      (bindings.find? first = some var ∨
        bindings.find? first = none ∧ vm.heap.contains var = false) ∧
      makeLocals bindings rest (locals.insert first var) vm₁ = .ok made vm' := by
  unfold makeLocals at h
  cases hfirst : bindings.find? first with
  | some var =>
    rw [hfirst] at h
    exact ⟨var, vm, .refl hf, .inl rfl, h⟩
  | none =>
    rw [hfirst] at h
    obtain ⟨var, vm₁, hvar, h⟩ := bind_eq_ok.mp h
    exact ⟨var, vm₁, Tame.of_ok hf hvar, .inr ⟨rfl, newVar_fresh hf hvar⟩, h⟩

/-- A captured local has its captured variable, and every other one a new one. -/
theorem makeLocals_find? {names : List String} {made : NameMap Ref} (hf : vm.heap.FreeList)
    (h : makeLocals bindings names locals vm = .ok made vm') :
    (∀ name v, bindings.find? name = some v → name ∈ names ∨ locals.find? name = some v →
      made.find? name = some v) ∧
    (∀ name, name ∉ names → made.find? name = locals.find? name) ∧
    ∀ name v, made.find? name = some v →
      bindings.find? name = some v ∨ locals.find? name = some v ∨ vm.heap.contains v = false := by
  induction names generalizing locals vm with
  | nil =>
    obtain ⟨rfl, -⟩ := pure_eq_ok.mp h
    exact ⟨fun _ _ _ h => h.resolve_left nofun, fun _ _ => rfl, fun _ _ h => .inr (.inl h)⟩
  | cons first rest ih =>
    obtain ⟨var, vm₁, hadv, hvar, h⟩ := makeLocals_cons hf h
    obtain ⟨hcaptured, hother, hmade⟩ := ih hadv.heap.freeList h
    refine ⟨fun name v hv hname => hcaptured name v hv ?_, fun name hname => ?_,
      fun name v hv => ?_⟩
    · by_cases heq : name = first
      · subst heq
        rw [hv] at hvar
        obtain rfl := Option.some.inj (hvar.resolve_right nofun)
        exact .inr (NameMap.find?_insert_self ..)
      · exact hname.imp (fun hmem => (List.mem_cons.mp hmem).resolve_left heq)
          (NameMap.find?_insert_ne heq).trans
    · rw [List.mem_cons, not_or] at hname
      exact (hother name hname.2).trans (NameMap.find?_insert_ne hname.1)
    · rcases hmade name v hv with h | h | h
      · exact .inl h
      · by_cases heq : name = first
        · subst heq
          rw [NameMap.find?_insert_self] at h
          obtain rfl := Option.some.inj h
          exact hvar.imp_right fun h => .inr h.2
        · exact .inr (.inl ((NameMap.find?_insert_ne heq).symm.trans h))
      · exact .inr (.inr (hadv.heap.fresh h))

/-- The captured names that are not locals keep their variables. -/
theorem freeVars_find? {names : List String} {free : NameMap Ref} {name : String} {v : Ref}
    (hlocals : locals.find? name = none) (hv : bindings.find? name = some v)
    (hname : name ∈ names ∨ free.find? name = some v) :
    (freeVars bindings locals names free).find? name = some v := by
  induction names generalizing free with
  | nil => exact hname.resolve_left nofun
  | cons first rest ih =>
    unfold freeVars
    by_cases heq : name = first
    · subst heq
      have hnot : locals.contains name = false := by simp [NameMap.contains, hlocals]
      simp only [hnot, hv]
      exact ih (.inr (NameMap.find?_insert_self ..))
    · have hrest := hname.imp_left fun hmem => (List.mem_cons.mp hmem).resolve_left heq
      split
      · exact ih hrest
      · split
        · exact ih (hrest.imp_right (NameMap.find?_insert_ne heq).trans)
        · exact ih hrest

/-- A frame object: a captured name has its captured variable, and every other local a new one. -/
theorem allocFrame_eq_ok {method frame : Ref} {unit : CodeUnit} {made : NameMap Ref}
    (hf : vm.heap.FreeList)
    (h : allocFrame method unit bindings vm = .ok (frame, made) vm') :
    (∃ fr : Frame, vm'.heap.payload frame = .ok (.frame fr) ∧ fr.method = method ∧
      ∀ name ∈ unit.freevars, ∀ v, bindings.find? name = some v → fr.var? name = some v) ∧
    vm.heap.contains frame = false ∧
    ∀ name v, made.find? name = some v →
      bindings.find? name = some v ∨ vm.heap.contains v = false := by
  unfold allocFrame at h
  obtain ⟨locals, vm₁, hlocals, h⟩ := bind_eq_ok.mp h
  have hadv := Tame.of_ok hf hlocals
  obtain ⟨hcaptured, hother, hmade⟩ := makeLocals_find? hf hlocals
  obtain ⟨r, vm₂, hnew, h⟩ := bind_eq_ok.mp h
  cases h
  rw [new_eq] at hnew
  cases hnew
  refine ⟨⟨⟨method, made, freeVars bindings made unit.freevars {}⟩, ?_, rfl, ?_⟩, ?_, ?_⟩
  · exact Heap.payload_eq_ok_iff.mpr
      ⟨_, (Heap.get_place hadv.heap.freeList _ _).trans (if_pos rfl)⟩
  · intro name hname v hv
    unfold Frame.var?
    by_cases hlocal : name ∈ unit.locals
    · simp only [hcaptured name v hv (.inl hlocal)]
    · have hnone : made.find? name = none := hother name hlocal
      simp only [hnone]
      exact freeVars_find? hnone hv (.inl hname)
  · exact hadv.heap.fresh (Heap.place_fresh hadv.heap.freeList _)
  · intro name v hv
    exact (hmade name v hv).imp_right fun h => h.resolve_left nofun

/-- Only the variables of the parameters are assigned. -/
theorem bindParams_advances (hf : vm.heap.FreeList) (names : List String) (values : List Ref) :
    vm.Advances (fun r => ∃ name ∈ names, locals.find? name = some r)
      (final (bindParams locals names values vm)) := by
  induction names generalizing values vm with
  | nil => exact .refl hf
  | cons name names ih =>
    cases values with
    | nil => exact .refl hf
    | cons value values =>
      have hrest : ∀ {vm : Vm}, vm.heap.FreeList →
          vm.Advances (fun r => ∃ n ∈ name :: names, locals.find? n = some r)
            (final (bindParams locals names values vm)) := fun hf =>
        (ih hf values).mono fun r ⟨n, hn, hr⟩ => ⟨n, List.mem_cons_of_mem _ hn, hr⟩
      unfold bindParams
      cases hvar : locals.find? name with
      | none => exact hrest hf
      | some var =>
        have hwrite : vm.Advances (fun r => ∃ n ∈ name :: names, locals.find? n = some r)
            (final (writeVar var value vm)) :=
          writeVar_advances hf ⟨name, List.mem_cons_self, hvar⟩
        refine .bind hwrite fun _ vm₁ hrun => ?_
        have hwritten := hwrite.of_ok hrun
        exact hwritten.trans (hrest hwritten.heap.freeList)

end Vm

/-! ## Frames that were entered -/

/-- A running frame has the code and the module of its method, and the variables that the method
has captured. -/
inductive ActiveFrame.Built (h : Heap) (f : ActiveFrame) : Prop where
  | intro {m : Method} {c : Code} {fr : Frame} :
      h.payload f.method = .ok (.method m) → m.body.code? = some f.code →
      m.body.module? = f.module →
      h.payload f.code = .ok (.code c) → c.unit = f.unit →
      h.payload f.frame = .ok (.frame fr) → fr.method = f.method →
      (∀ name ∈ f.unit.freevars, ∀ v, m.body.bindings.find? name = some v →
        fr.var? name = some v) → Built h f

/-- A variable that a method has captured under the name of a parameter. Entering the method
assigns it. -/
def Heap.BindsParam (h : Heap) (method v : Ref) : Prop :=
  ∃ m code c, h.payload method = .ok (.method m) ∧ m.body.code? = some code ∧
    h.payload code = .ok (.code c) ∧ ∃ name ∈ c.unit.params, m.body.bindings.find? name = some v

/-- What entering a method does: a frame is put on top, and captured parameters are assigned. -/
structure Vm.Enters (v : Vm) (g : ActiveFrame) (v' : Vm) : Prop where
  heap : v.heap.Evolves (v'.heap.BindsParam g.method) v'.heap
  fresh : v.heap.contains g.frame = false
  built : g.Built v'.heap
  top : v'.frames.back? = some g
  frames : ∀ f' ∈ v'.frames, f' = g ∨ ∃ f ∈ v.frames, f'.still = f.still

namespace Vm.Enters

variable {v w v' : Vm} {g : ActiveFrame}

/-- Something tame before it makes no difference. -/
theorem after (h : w.Enters g v') (hw : v.Advances noVar w) : v.Enters g v' where
  heap := (hw.heap.mono fun _ => False.elim).trans h.heap
  fresh := hw.heap.fresh h.fresh
  built := h.built
  top := h.top
  frames f' hf' := (h.frames f' hf').imp_right fun ⟨f, hf, hstill⟩ => by
    obtain ⟨e, he, hfe⟩ := hw.frames f hf
    exact ⟨e, he, hstill.trans hfe⟩

theorem of_eq {w' : Vm} (h : v.Enters g w') (hheap : v'.heap = w'.heap)
    (hframes : v'.frames = w'.frames) : v.Enters g v' := by
  obtain ⟨heap, fresh, built, top, frames⟩ := h
  exact ⟨hheap ▸ heap, fresh, hheap ▸ built, hframes ▸ top, hframes ▸ frames⟩

end Vm.Enters

/-- What an action does that may enter a frame. A failure for good does not count. -/
inductive Vm.Conduct {α : Type} (v : Vm) (out : EStateM.Result Stop Vm α) : Prop where
  | stays (h : v.Advances noVar (final out))
  | enters {x : α} {v' : Vm} {g : ActiveFrame} (hout : out = .ok x v') (h : v.Enters g v')
  | ends {e : Stop} {v' : Vm} (hout : out = .error e v') (he : ∀ e', e ≠ .raised e')

namespace Vm.Conduct

variable {α β : Type} {v : Vm}

/-- After something tame. -/
theorem bind (a : Action α) [ha : Tame a] {f : α → Action β} (hf : v.heap.FreeList)
    (hfa : ∀ x vm, a v = .ok x vm → vm.heap.FreeList → vm.Conduct (f x vm)) :
    v.Conduct ((a >>= f) v) := by
  cases hrun : a v with
  | error e vm =>
    have hadv := ha.advances v hf
    rw [hrun] at hadv
    rw [bind_error hrun]
    exact .stays hadv
  | ok x vm =>
    have hadv := Tame.of_ok hf hrun
    rw [bind_ok hrun]
    rcases hfa x vm hrun hadv.heap.freeList with h | ⟨hout, h⟩ | ⟨hout, he⟩
    · exact .stays (hadv.trans h)
    · exact .enters hout (h.after hadv)
    · exact .ends hout he

/-- Before something that succeeds and changes neither the heap nor the frames. -/
theorem andThen {a : Action α} {f : α → Action β} (h : v.Conduct (a v))
    (hf : ∀ x vm, ∃ y vm', f x vm = .ok y vm' ∧ vm'.heap = vm.heap ∧ vm'.frames = vm.frames) :
    v.Conduct ((a >>= f) v) := by
  cases hrun : a v with
  | error e vm =>
    rw [bind_error hrun]
    rw [hrun] at h
    rcases h with h | ⟨⟨⟩, -⟩ | ⟨⟨⟩, he⟩
    · exact .stays h
    · exact .ends rfl he
  | ok x vm =>
    rw [bind_ok hrun]
    rw [hrun] at h
    obtain ⟨y, vm', hrun', hheap, hframes⟩ := hf x vm
    rw [hrun']
    rcases h with h | ⟨⟨⟩, h⟩ | ⟨⟨⟩, -⟩
    · exact .stays ⟨hheap ▸ h.heap, hframes ▸ h.frames⟩
    · exact .enters rfl (h.of_eq hheap hframes)

end Vm.Conduct

namespace Unraised

variable {α : Type}

instance fatal (f : Fatal) : Unraised (Action.fatal f : Action α) := ⟨fun _ _ _ => nofun⟩

instance trace (on : Channels → Bool) (channel : String) (text : Vm → String) :
    Unraised (Vm.trace on channel text) := by
  unfold Vm.trace; infer_instance

instance newVar (value : Option Ref) : Unraised (Vm.newVar value) :=
  ⟨fun vm => (alloc _ _).ne_raised vm⟩

instance makeLocals (bindings : NameMap Ref) (names : List String) (locals : NameMap Ref) :
    Unraised (Vm.makeLocals bindings names locals) := by
  induction names generalizing locals with
  | nil => exact return_ locals
  | cons name rest ih =>
    unfold Vm.makeLocals
    dsimp only
    split <;> infer_instance

instance allocFrame (method : Ref) (unit : CodeUnit) (bindings : NameMap Ref) :
    Unraised (Vm.allocFrame method unit bindings) := by
  unfold Vm.allocFrame
  have hframe : ∀ p, Unraised (Vm.new .frame p) := fun p => ⟨fun vm => (alloc _ _).ne_raised vm⟩
  infer_instance

instance writeVar (var value : Ref) : Unraised (Vm.writeVar var value) := by
  unfold Vm.writeVar Vm.payload Action.modifyHeap
  refine @bind _ _ _ _ _ fun p => ?_
  cases p <;> infer_instance

instance bindParams (locals : NameMap Ref) (names : List String) (values : List Ref) :
    Unraised (Vm.bindParams locals names values) := by
  induction names generalizing values with
  | nil => unfold Vm.bindParams; infer_instance
  | cons name names ih =>
    cases values with
    | nil => unfold Vm.bindParams; infer_instance
    | cons value values =>
      unfold Vm.bindParams
      dsimp only
      split <;> infer_instance

end Unraised

namespace Vm

variable {vm vm' : Vm} {method : Ref} {args : List Ref}

/-- What a method runs with is what it says. -/
theorem callee_eq_ok {c : Callee} (h : callee method vm = .ok c vm') :
    ∃ m, vm.heap.payload method = .ok (.method m) ∧ m.body.code? = some c.code ∧
      m.body.module? = c.module ∧ m.body.bindings = c.bindings := by
  unfold callee at h
  obtain ⟨p, hp, h⟩ := Reads.bind_eq_ok h
  obtain ⟨hp, -⟩ := payload_eq_ok.mp hp
  cases p with
  | method m =>
    dsimp only at h
    cases hbody : m.body with
    | native f =>
      rw [hbody] at h
      cases h
    | bytecode code module =>
      rw [hbody] at h
      obtain ⟨rfl, -⟩ := pure_eq_ok.mp h
      exact ⟨m, hp, by rw [hbody]; exact ⟨rfl, rfl, rfl⟩⟩
    | closure code module bindings =>
      rw [hbody] at h
      obtain ⟨rfl, -⟩ := pure_eq_ok.mp h
      exact ⟨m, hp, by rw [hbody]; exact ⟨rfl, rfl, rfl⟩⟩
  | _ =>
    unfold mismatch className at h
    obtain ⟨_, -, h⟩ := Reads.bind_eq_ok h
    cases h

/-- A frame with its parameters bound, once it is known that the arguments are as many. -/
def furnish (method : Ref) (c : Callee) (unit : CodeUnit) (values : List Ref) :
    Action ActiveFrame := do
  let (frame, locals) ← allocFrame method unit c.bindings
  bindParams locals unit.params values
  trace Channels.vm "vm" fun vm => s!"enter {unit.name} (depth {vm.frames.size + 1})"
  return { frame := frame, method := method, code := c.code, module := c.module, unit := unit
           ip := 0, base := 0 }

theorem activate_run (method : Ref) (args : List Ref) (vm : Vm) :
    activate method args vm =
      if vm.callDepth ≥ vm.config.maxFrames then
        Action.raise (.stackOverflow vm.frames.size) vm
      else (callee method >>= fun c => codeUnit c.code >>= fun unit =>
        if (c.receiver.toList ++ args).length ≠ unit.arity.toNat then
          Action.raise (.arity unit.name unit.arity.toNat (c.receiver.toList ++ args).length)
        else furnish method c unit (c.receiver.toList ++ args)) vm := by
  rw [activate_eq, bind_run]
  show (ite (vm.callDepth ≥ vm.config.maxFrames) _ _ : Action ActiveFrame) vm = _
  split <;> rfl

instance furnish_unraised (method : Ref) (c : Callee) (unit : CodeUnit) (values : List Ref) :
    Unraised (furnish method c unit values) := by
  unfold furnish; infer_instance

/-- Only the checks at the beginning raise anything, and these change nothing. -/
theorem activate_raised {e : Error} (h : activate method args vm = .error (.raised e) vm') :
    vm' = vm := by
  rw [activate_run] at h
  split at h
  · cases h
    rfl
  · rcases Reads.cases (callee method) vm with ⟨c, hc⟩ | ⟨s, hc⟩
    · rw [bind_ok hc] at h
      rcases Reads.cases (codeUnit c.code) vm with ⟨unit, hu⟩ | ⟨s, hu⟩
      · rw [bind_ok hu] at h
        split at h
        · cases h
          rfl
        · exact absurd h (Unraised.ne_raised _ _ _)
      · rw [bind_error hu] at h
        cases h
        rfl
    · rw [bind_error hc] at h
      cases h
      rfl

/-- A frame that is ready to run. -/
theorem furnish_eq_ok {c : Callee} {unit : CodeUnit} {values : List Ref} {f : ActiveFrame}
    (hf : vm.heap.FreeList) (h : furnish method c unit values vm = .ok f vm') :
    vm.Advances (fun r => ∃ name ∈ unit.params, c.bindings.find? name = some r) vm' ∧
      vm.heap.contains f.frame = false ∧
      (∃ fr : Frame, vm'.heap.payload f.frame = .ok (.frame fr) ∧ fr.method = method ∧
        ∀ name ∈ unit.freevars, ∀ v, c.bindings.find? name = some v → fr.var? name = some v) ∧
      ∃ frame, f = ⟨frame, method, c.code, c.module, unit, 0, 0⟩ := by
  unfold furnish at h
  obtain ⟨⟨frame, locals⟩, vm₁, halloc, h⟩ := bind_eq_ok.mp h
  have hadv := Tame.of_ok hf halloc
  obtain ⟨⟨fr, hfr, hmethod, hvars⟩, hfresh, hlocals⟩ := allocFrame_eq_ok hf halloc
  obtain ⟨_, vm₂, hbind, h⟩ := bind_eq_ok.mp h
  have hbound := (bindParams_advances hadv.heap.freeList unit.params values).of_ok hbind
  obtain ⟨_, vm₃, htrace, h⟩ := bind_eq_ok.mp h
  have htraced := Tame.of_ok hbound.heap.freeList htrace
  obtain ⟨rfl, rfl⟩ := pure_eq_ok.mp h
  have hafter := hbound.trans (htraced.mono fun _ => False.elim)
  refine ⟨?_, hfresh, ⟨fr, hafter.heap.payload_lasting hfr trivial, hmethod, hvars⟩, frame, rfl⟩
  -- a variable that was there before is one of the captured ones
  refine (hadv.mono fun _ => False.elim).trans_of hafter ?_
  rintro r hr ⟨name, hname, hfound⟩
  refine ⟨name, hname, (hlocals name r hfound).resolve_right ?_⟩
  rw [hr]
  nofun

theorem activate_eq_ok {f : ActiveFrame} (hf : vm.heap.FreeList)
    (h : activate method args vm = .ok f vm') :
    vm.Advances (vm'.heap.BindsParam f.method) vm' ∧ vm.heap.contains f.frame = false ∧
      f.Built vm'.heap := by
  rw [activate_run] at h
  split at h
  · cases h
  obtain ⟨c, hc, h⟩ := Reads.bind_eq_ok h
  obtain ⟨m, hm, hcode, hmodule, hbindings⟩ := callee_eq_ok hc
  obtain ⟨unit, hu, h⟩ := Reads.bind_eq_ok h
  obtain ⟨⟨code, hval, rfl⟩, -⟩ := codeUnit_eq_ok.mp hu
  split at h
  · cases h
  obtain ⟨hadv, hfresh, ⟨fr, hfr, hmethod, hvars⟩, frame, rfl⟩ := furnish_eq_ok hf h
  have hm' := hadv.heap.payload_lasting hm trivial
  have hval' := hadv.heap.payload_lasting hval trivial
  rw [← hbindings] at hadv hvars
  refine ⟨hadv.mono ?_, hfresh, .intro hm' hcode hmodule hval' rfl hfr hmethod hvars⟩
  rintro r ⟨name, hname, hfound⟩
  exact ⟨m, c.code, code, hm', hcode, hval', name, hname, hfound⟩

/-- Entering a method puts a frame on top, or assigns nothing, or fails for good. -/
theorem enter_conduct (hf : vm.heap.FreeList) (method : Ref) (args : List Ref) :
    vm.Conduct (enter method args vm) := by
  unfold enter
  cases hrun : activate method args vm with
  | error e vm₁ =>
    rw [bind_error hrun]
    cases e with
    | raised e =>
      obtain rfl := activate_raised hrun
      exact .stays (.refl hf)
    | fatal f => exact .ends rfl nofun
    | crashed => exact .ends rfl nofun
  | ok f vm₁ =>
    obtain ⟨hadv, hfresh, hbuilt⟩ := activate_eq_ok hf hrun
    rw [bind_ok hrun]
    refine .enters rfl (g := { f with base := vm₁.stack.size })
      ⟨hadv.heap, hfresh, ?_, Array.back?_push .., ?_⟩
    · obtain ⟨hm, hcode, hmodule, hval, hunit, hfr, hmethod, hvars⟩ := hbuilt
      exact .intro hm hcode hmodule hval hunit hfr hmethod hvars
    · intro f' hf'
      rcases Array.mem_push.mp hf' with hf' | rfl
      · exact .inr (hadv.frames f' hf')
      · exact .inl rfl

theorem enterLoop_conduct (hf : vm.heap.FreeList) (method : Ref) (args : List Ref) :
    vm.Conduct (enterLoop method args vm) := by
  rw [enterLoop_run]
  split
  · exact .stays (.refl hf)
  · exact (enter_conduct hf method args).andThen fun _ vm => ⟨_, _, rfl, rfl, rfl⟩

end Vm
end ObjectMachine
