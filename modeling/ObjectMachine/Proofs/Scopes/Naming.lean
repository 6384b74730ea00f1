import ObjectMachine.Proofs.Scopes.Activations

/-!
# ObjectMachine.Proofs.Scopes.Naming

Where variables get names while a program runs: frames, closures and stores.

* `Vm.allocFrame_yields` — a frame has captured variables under their names, and new ones.
* `Vm.makeClosure_adds` — a closure captures variables under their names.
* `Vm.storeName_works` — a store changes one variable, or gives a new one a name.
* `Vm.enter_proceeds` — entering a method adds a frame and assigns variables.
* `Vm.execute_proceeds` — so no instruction gives a variable another name.
-/

namespace ObjectMachine

open ObjectMachine.Action

/-! ## Frames -/

namespace Vm

variable {v₀ v : Vm} {bindings locals : NameMap Ref}

theorem makeLocals_yields (names : List String) (h : v₀.Works Eq v)
    (hbindings : v₀.Neat → ∀ name x, bindings.find? name = some x → v.heap.Bound name x)
    (hlocals : v₀.Neat → v₀.Gathers v locals) :
    v₀.Yields v (makeLocals bindings names locals) fun v' made =>
      v.heap.Turns (fun _ => Eq) v'.heap ∧ (v₀.Neat → v₀.Gathers v' made) := by
  induction names generalizing v locals with
  | nil => exact .return_ h ⟨.refl h.heap.freeList fun _ _ => rfl, hlocals⟩
  | cons name rest ih =>
    unfold makeLocals
    cases hfound : bindings.find? name with
    | some x =>
      exact ih h hbindings fun hv => (hlocals hv).insert_bound (hbindings hv name x hfound)
    | none =>
      refine (newVar_yields h none).bind fun var v₁ hw hvar => ?_
      refine (ih hw (fun hv n x hx => hvar.1.heap.binds (hbindings hv n x hx)) fun hv => ?_).imp
        fun v₂ made _ hmade => ⟨?_, hmade.2⟩
      · refine ((hlocals hv).keep (hvar.1.names (h.names hv).neat) hvar.1.heap).insert_loose
          (hvar.2.2.1 hv) fun n hn => ?_
        have hlive := ((hlocals hv).isVar (h.names hv).neat hn).contains
        rw [hvar.2.1] at hlive
        cases hlive
      · exact hvar.1.heap.trans_of hmade.1 fun _ _ _ _ _ hpq hqs => hpq.trans hqs

/-- Free variables are captured ones. -/
theorem freeVars_subset {names : List String} {free : NameMap Ref} {name : String} {x : Ref}
    (hx : (freeVars bindings locals names free).find? name = some x) :
    bindings.find? name = some x ∨ free.find? name = some x := by
  induction names generalizing free with
  | nil => exact .inr hx
  | cons first rest ih =>
    unfold freeVars at hx
    split at hx
    · exact ih hx
    · split at hx
      · rename_i y hy
        rcases ih hx with hcaptured | hfree
        · exact .inl hcaptured
        · by_cases heq : name = first
          · subst heq
            rw [NameMap.find?_insert_self] at hfree
            exact .inl (hy.trans hfree)
          · exact .inr ((NameMap.find?_insert_ne heq).symm.trans hfree)
      · exact ih hx

/-- A frame has captured variables under their names, and new ones. -/
theorem allocFrame_yields (method : Ref) (unit : CodeUnit) (h : v₀.Works Eq v)
    (hbindings : v₀.Neat → ∀ name x, bindings.find? name = some x → v.heap.Bound name x) :
    v₀.Yields v (allocFrame method unit bindings) fun v' _ =>
      v.heap.Turns (fun _ => Eq) v'.heap := by
  unfold allocFrame
  refine (makeLocals_yields unit.locals h hbindings fun _ => .empty).bind
    fun made v₁ hw hmade => ?_
  refine (Yields.new hw .frame (fun hv => ⟨fun name x hx => ?_, ?_⟩) (by rintro _ ⟨⟩)
    (by rintro - _ ⟨⟩) rfl).bind fun frame v₂ hw₂ hframe => .return_ hw₂ ?_
  · have hfree : ∀ {n y}, (freeVars bindings made unit.freevars {}).find? n = some y →
        v₁.heap.Bound n y := fun {n y} hy =>
      hmade.1.binds (hbindings hv n y ((freeVars_subset hy).resolve_right nofun))
    rcases hx with hlocal | hcaptured
    · refine (hmade.2 hv name x hlocal).imp_right fun ⟨hloose, hone⟩ => ⟨hloose, ?_⟩
      rintro other (hother | hother)
      · exact hone other hother
      · exact absurd (hfree hother) (hloose.unbound other)
    · exact .inl (hfree hcaptured)
  · exact fun _ _ => nofun
  · exact hmade.1.trans_of hframe.2.2 fun _ _ _ _ _ hpq hqs => hpq.trans hqs

/-- The variables that a method has captured have the names under which it has them. -/
theorem callee_binds {method : Ref} {c : Callee} {v' : Vm} (hc : callee method v = .ok c v')
    {name : String} {x : Ref} (hx : c.bindings.find? name = some x) : v.heap.Bound name x := by
  obtain ⟨m, hm, -, -, hbindings⟩ := callee_eq_ok hc
  refine ⟨method, .method m, hm, ?_⟩
  show m.body.bindings.find? name = some x
  rw [hbindings]
  exact hx

theorem buildFrame_adds (method : Ref) : Adds (buildFrame method) := by
  refine ⟨fun v hf => ?_⟩
  have hbuilt : v.Yields v (buildFrame method) fun _ _ => True := by
    unfold buildFrame
    refine (Yields.reads (.refl hf)).bind fun c v₁ hw hc => ?_
    obtain ⟨rfl, hc⟩ := hc
    refine (Yields.reads hw).bind fun unit v₂ hw hunit => ?_
    obtain ⟨rfl, -⟩ := hunit
    refine (allocFrame_yields method unit hw fun _ _ _ => callee_binds hc).bind
      fun frame v₃ hw₃ _ => .return_ hw₃ trivial
  exact hbuilt.works

/-! ## Closures -/

/-- A closure captures variables under their names. -/
theorem makeClosure_adds (code : Ref) : Adds (makeClosure code) := by
  refine ⟨fun v hf => ?_⟩
  have hmade : v.Yields v (makeClosure code) fun _ _ => True := by
    unfold makeClosure
    refine (Yields.reads (.refl hf)).bind fun unit v₁ hw hunit => ?_
    obtain ⟨rfl, hunit⟩ := hunit
    obtain ⟨⟨c, hc, -⟩, -⟩ := codeUnit_eq_ok.mp hunit
    refine (Yields.reads hw).bind fun f v₂ hw htop => ?_
    obtain ⟨rfl, htop⟩ := htop
    refine (Yields.reads hw).bind fun vars v₃ hw hvars => ?_
    obtain ⟨rfl, hvars⟩ := hvars
    refine (newMethod_yields hw unit.name none (.closure ⟨c, hc⟩ (captureVars_nodup hvars
      List.nodup_nil)) (fun _ name x hx => ?_) fun hv r hr => ?_).imp fun _ _ _ _ => trivial
    · have hscope := (captureVars_scoped hvars hx).resolve_left nofun
      obtain ⟨⟨g, -, hres⟩, -⟩ := scopedVar?_eq_some.mp hscope
      exact .inl hres.binds
    · exact hv.scopes r (.frame (Array.mem_of_back? (top_eq_ok.mp htop).1) hr)
  exact hmade.works

end Vm

namespace Acts

instance buildFrame (method : Ref) : Adds (Vm.buildFrame method) := Vm.buildFrame_adds method

instance makeClosure (code : Ref) : Adds (Vm.makeClosure code) := Vm.makeClosure_adds code

end Acts

/-! ## Assignments -/

/-- A variable may get a value. -/
inductive Payload.Assigns : Payload → Payload → Prop where
  | same (p : Payload) : Assigns p p
  | value (x : Option Ref) (y : Ref) : Assigns (.var x) (.var (some y))

namespace Payload.Assigns

variable {p q r : Payload}

theorem trans (h : p.Assigns q) (h' : q.Assigns r) : p.Assigns r := by
  cases h with
  | same => exact h'
  | value x y =>
    cases h' with
    | same => exact .value x y
    | value _ z => exact .value x z

theorem changes (h : p.Assigns q) : p.Changes True q := by
  cases h with
  | same => exact .same p
  | value x y => exact .value x y trivial

end Payload.Assigns

instance Gentle.assigns : Gentle Payload.Assigns where
  refl := .same
  becomes _ _ h := h.changes.becomes

namespace Vm

variable {vm : Vm}

theorem writeVar_works (hf : vm.heap.FreeList) (var value : Ref) :
    vm.Works Payload.Assigns (final (writeVar var value vm)) := by
  unfold writeVar
  refine (Acts.inspecting fun p vm hf hp => ?_).works vm hf
  cases p with
  | var x =>
    exact .update hf hp (.value x value) (.setValue trivial value) fun _ _ _ =>
      Payload.binds_setValue
  | _ => exact .refl hf

theorem bindParams_works (hf : vm.heap.FreeList) (locals : NameMap Ref) (names : List String)
    (values : List Ref) : vm.Works Payload.Assigns (final (bindParams locals names values vm)) := by
  induction names generalizing values vm with
  | nil => exact .refl hf
  | cons name names ih =>
    cases values with
    | nil => exact .refl hf
    | cons value values =>
      unfold bindParams
      cases locals.find? name with
      | none => exact ih hf values
      | some var =>
        refine .bind (writeVar_works hf var value) fun _ vm₁ hrun => ?_
        have hwritten := (writeVar_works hf var value).of_ok hrun
        have hrest := ih hwritten.heap.freeList values
        exact ⟨hwritten.toProceeds.trans_of hrest.toProceeds fun _ _ _ => .trans,
          Works.frames_trans hwritten.frames hrest.frames⟩

/-- A store changes one variable, or gives a new one a name, or changes a global. -/
theorem storeName_works (hf : vm.heap.FreeList) (name : String) (value : Ref) :
    vm.Works (Payload.Changes True) (final (storeName name value vm)) := by
  unfold storeName
  refine .bind ?_ fun found vm₁ hscope => ?_
  · rw [Reads.state]
    exact .refl hf
  obtain rfl := Reads.of_ok hscope
  cases found with
  | some var => exact (writeVar_works hf var value).mono fun _ _ => Payload.Assigns.changes
  | none =>
    refine .bind ?_ fun f vm₂ htop => ?_
    · rw [Reads.state]
      exact .refl hf
    obtain ⟨hback, rfl⟩ := top_eq_ok.mp htop
    cases hr : f.module with
    | none => exact Acts.works (a := setGlobal name value) vm₁ hf
    | some r =>
      have hvar := newVar_yields (.refl hf) (some value)
      refine .bind hvar.works.weaken fun var vm₃ hrun => ?_
      refine .bind ?_ fun p vm₄ hp => ?_
      · rw [Reads.state]
        exact (hvar.works.of_ok hrun).weaken
      obtain ⟨hval, rfl⟩ := payload_eq_ok.mp hp
      obtain ⟨hw, -, hloose, -⟩ := hvar.result var vm₃ hrun
      refine ⟨hw.toProceeds.update ?_ (fun _ => Payload.addLocal_eq)
        (Payload.moduleName_addLocal name var) fun hv => ?_, hw.frames⟩
      · exact hw.heap.trans_of (addLocal_kept hf hscope hback hr hrun hval True)
          fun _ _ _ _ _ hpq hqs => hpq ▸ hqs
      · exact (hw.names hv).addLocal r name (hloose hv)

/-! ## Entering methods -/

theorem Proceeds.bind {α β : Type} {R : Payload → Payload → Prop} {v : Vm} {a : Action α}
    {f : α → Action β} (ha : v.Proceeds R (final (a vm)))
    (hf : ∀ x vm', a vm = .ok x vm' → v.Proceeds R (final (f x vm'))) :
    v.Proceeds R (final ((a >>= f) vm)) := by
  cases h : a vm with
  | ok x vm' =>
    rw [bind_ok h]
    exact hf x vm' h
  | error e vm' =>
    rw [h] at ha
    rw [bind_error h]
    exact ha

theorem Proceeds.bindAdds {α β : Type} {R : Payload → Payload → Prop} [Gentle R] {v : Vm}
    {a : Action α} {f : α → Action β} [hf : ∀ x, Adds (f x)] (ha : v.Proceeds R (final (a vm))) :
    v.Proceeds R (final ((a >>= f) vm)) := by
  refine .bind ha fun x vm' hrun => ?_
  rw [hrun] at ha
  exact ha.before ((hf x).works vm' ha.heap.freeList).toProceeds

/-- A frame with its parameters bound: only variables are assigned. -/
theorem furnish_works (hf : vm.heap.FreeList) {method : Ref} {c : Callee} (unit : CodeUnit)
    (values : List Ref) (hbindings : ∀ name x, c.bindings.find? name = some x →
      vm.heap.Bound name x) :
    vm.Works Payload.Assigns (final (furnish method c unit values vm)) := by
  unfold furnish
  have hframe := allocFrame_yields method unit (.refl hf) fun _ => hbindings
  refine .bind hframe.works.weaken fun made vm₁ hrun => ?_
  have hw := hframe.works.of_ok hrun
  have hbound := (bindParams_works hw.heap.freeList made.2 unit.params values).after hw
  refine .bind hbound fun _ vm₂ hrun => ?_
  have hw₂ := hbound.of_ok hrun
  exact hw₂.before (Acts.works vm₂ hw₂.heap.freeList)

theorem activate_works (hf : vm.heap.FreeList) (method : Ref) (args : List Ref) :
    vm.Works Payload.Assigns (final (activate method args vm)) := by
  rw [activate_run]
  split
  · exact .refl hf
  · refine .bind ?_ fun c vm₁ hc => ?_
    · rw [Reads.state]
      exact .refl hf
    obtain rfl := Reads.of_ok hc
    refine .bind ?_ fun unit vm₂ hunit => ?_
    · rw [Reads.state]
      exact .refl hf
    obtain rfl := Reads.of_ok hunit
    split
    · exact .refl hf
    · exact furnish_works hf unit _ fun _ _ => callee_binds hc

/-- A frame that is entered looks names up in the module of its method. -/
theorem enter_proceeds (hf : vm.heap.FreeList) (method : Ref) (args : List Ref) :
    vm.Proceeds (Payload.Changes True) (final (enter method args vm)) := by
  have hactivate := (activate_works hf method args).toProceeds.mono fun _ _ =>
    Payload.Assigns.changes
  unfold enter
  refine .bind hactivate fun f vm₁ hrun => ?_
  rw [hrun] at hactivate
  obtain ⟨-, -, hbuilt⟩ := activate_eq_ok hf hrun
  obtain ⟨hm, -, hmodule, -⟩ := hbuilt
  refine hactivate.of_scopes rfl rfl fun r hr => ?_
  cases hr with
  | frame hmem hscope =>
    rcases Array.mem_push.mp hmem with hold | rfl
    · exact .frame hold hscope
    · exact .method hm (hmodule.trans hscope)
  | method hm hscope => exact .method hm hscope
  | table hfound => exact .table hfound

theorem enterLoop_proceeds (hf : vm.heap.FreeList) (method : Ref) (args : List Ref) :
    vm.Proceeds (Payload.Changes True) (final (enterLoop method args vm)) := by
  rw [enterLoop_run]
  split
  · exact .refl hf
  · refine .bind (enter_proceeds hf method args) fun _ vm₁ hrun => ?_
    have henter := enter_proceeds hf method args
    rw [hrun] at henter
    exact henter.of_same ⟨rfl, rfl, rfl⟩

end Vm

/-! ## Instructions -/

namespace Acts

/-- Two instructions can do more: a store assigns a variable, and a call enters a frame. -/
theorem execute {op : Op} (hstore : op ≠ .storeName) (hcall : op ≠ .call) (i : Instr) :
    Adds (Vm.execute op i) := by
  unfold Vm.execute
  cases op with
  | storeName => exact absurd rfl hstore
  | call => exact absurd rfl hcall
  | jumpIfTrue =>
    refine after fun v => after fun b => ?_
    split <;> infer_instance
  | jumpIfFalse =>
    refine after fun v => after fun b => ?_
    split <;> infer_instance
  | _ => infer_instance

end Acts

namespace Vm

variable {vm : Vm}

theorem execute_call_proceeds (hf : vm.heap.FreeList) (i : Instr) :
    vm.Proceeds (Payload.Changes True) (final (execute .call i vm)) := by
  unfold execute
  dsimp only
  refine .bind ?_ fun operands vm₁ hrun => ?_
  · rw [Reads.state]
    exact .refl hf
  obtain rfl := Reads.of_ok hrun
  cases operands with
  | nil => exact .refl hf
  | cons callee args =>
    dsimp only
    refine .bind ?_ fun b vm₂ hrun => ?_
    · rw [Reads.state]
      exact .refl hf
    obtain rfl := Reads.of_ok hrun
    cases b with
    | false => exact .refl hf
    | true =>
      simp only [if_true]
      have hdrop := Acts.works (R := Eq) (a := drop (i.arg1.toNat + 1)) vm₂ hf
      refine .bind (hdrop.weaken (R := Payload.Changes True)).toProceeds fun _ vm₃ hrun => ?_
      have hdropped := hdrop.of_ok hrun
      exact ((enter_proceeds hdropped.heap.freeList callee args).after
        hdropped.toProceeds).bindAdds

/-- An instruction gives no variable another name, and changes what `Payload.Changes` says. -/
theorem execute_proceeds (hf : vm.heap.FreeList) (op : Op) (i : Instr) :
    vm.Proceeds (Payload.Changes True) (final (execute op i vm)) := by
  by_cases hcall : op = .call
  · subst hcall
    exact execute_call_proceeds hf i
  · by_cases hstore : op = .storeName
    · subst hstore
      have hpop := Acts.works (R := Eq) (a := pop) vm hf
      unfold execute
      refine .bind (hpop.weaken (R := Payload.Changes True)).toProceeds fun v vm₁ hrun => ?_
      have hpopped := hpop.of_ok hrun
      refine .bind ?_ fun name vm₂ hrun => ?_
      · rw [Reads.state]
        exact (hpopped.weaken (R := Payload.Changes True)).toProceeds
      obtain rfl := Reads.of_ok hrun
      exact ((storeName_works hpopped.heap.freeList name v).toProceeds.after
        hpopped.toProceeds).bindAdds
    · have := Acts.execute hstore hcall i
      exact (Acts.works (R := Payload.Changes True) vm hf).toProceeds

end Vm
end ObjectMachine
