import ObjectMachine.Proofs.Renaming.Instructions

/-!
# ObjectMachine.Proofs.Renaming.Collections

A collection takes nothing from a task that the task can still name.

* `Vm.Related.roots` — the references that related states hold.
* `Vm.Swept` — a state after the collector may have run. Everything the task holds is still there.
* `Vm.collect_swept`, `Vm.tick_swept` — neither a collection nor a look at the collector fails.
* `Vm.Related.swept` — states stay related when the collector runs on each side on its own.
-/

namespace ObjectMachine

variable {ρ : Renaming} {v w v₁ w₁ : Vm}

/-! ## What a task holds -/

/-- The objects that a running frame runs with. -/
theorem ActiveFrame.Related.refs {f g : ActiveFrame} (h : f.Related ρ g) :
    List.Forall₂ ρ (f.frame :: f.method :: f.code :: f.module.toList)
      (g.frame :: g.method :: g.code :: g.module.toList) :=
  .cons h.frame (.cons h.method (.cons h.code (optionRel_toList h.module)))

theorem ActiveFrame.Related.imp {σ : Renaming} {f g : ActiveFrame} (h : f.Related ρ g)
    (hσ : ∀ x ∈ f.frame :: f.method :: f.code :: f.module.toList,
      ∀ y ∈ g.frame :: g.method :: g.code :: g.module.toList, ρ x y → σ x y) : f.Related σ g where
  frame := hσ _ (by simp) _ (by simp) h.frame
  method := hσ _ (by simp) _ (by simp) h.method
  code := hσ _ (by simp) _ (by simp) h.code
  module := optionRel_imp h.module fun x hx y hy => by
    refine hσ x ?_ y ?_
    · simp [Option.mem_def.mp hx]
    · simp [Option.mem_def.mp hy]
  unit := h.unit
  ip := h.ip
  base := h.base

theorem Vm.Related.roots (h : v.Related ρ w) : List.Forall₂ ρ v.roots w.roots := by
  unfold Vm.roots
  refine List.rel_append (List.rel_append (List.rel_append (List.rel_append (List.rel_append
    h.stack ?_) h.temps) h.classes.values) h.globals.values) h.modules.values
  exact List.rel_flatMap h.frames fun _ _ hfg => hfg.refs

theorem Vm.Related.roots_live (h : v.Related ρ w) :
    (∀ r ∈ v.roots, v.heap.contains r = true) ∧ ∀ r ∈ w.roots, w.heap.contains r = true := by
  constructor
  · intro r hr
    obtain ⟨s, -, hrs⟩ := forall₂_mem_left h.roots hr
    exact h.heap.live_left hrs
  · intro r hr
    obtain ⟨s, -, hsr⟩ := forall₂_mem_right h.roots hr
    exact h.heap.live_right hsr

section Roots

variable {r : Ref}

theorem Vm.mem_roots_stack (h : r ∈ v.stack.toList) : r ∈ v.roots := by
  simp [Vm.roots, Array.mem_toList_iff.mp h]

theorem Vm.mem_roots_frame {f : ActiveFrame} (hf : f ∈ v.frames.toList)
    (h : r ∈ f.frame :: f.method :: f.code :: f.module.toList) : r ∈ v.roots := by
  have hmem : r ∈ v.frames.toList.flatMap fun f =>
      f.frame :: f.method :: f.code :: f.module.toList := List.mem_flatMap.mpr ⟨f, hf, h⟩
  unfold Vm.roots
  simp only [List.mem_append]
  exact .inl (.inl (.inl (.inl (.inr hmem))))

theorem Vm.mem_roots_temps (h : r ∈ v.temps) : r ∈ v.roots := by
  simp [Vm.roots, h]

theorem Vm.mem_roots_classes (h : r ∈ v.classes.values) : r ∈ v.roots := by
  simp [Vm.roots, h]

theorem Vm.mem_roots_globals (h : r ∈ v.globals.values) : r ∈ v.roots := by
  simp [Vm.roots, h]

theorem Vm.mem_roots_modules (h : r ∈ v.modules.values) : r ∈ v.roots := by
  simp [Vm.roots, h]

end Roots

/-! ## Collections -/

/-- A state after the collector may have run: what the task holds is still there. -/
structure Vm.Swept (v v₁ : Vm) : Prop where
  state : v₁ = { v with heap := v₁.heap, ticks := v₁.ticks, log := v₁.log }
  remains : v.heap.Remains v₁.heap
  sound : v₁.heap.Sound
  live : ∀ r ∈ v.roots, v₁.heap.contains r = true

/-- A collection does not fail. -/
theorem Vm.collect_swept (hs : v.heap.Sound) (hl : ∀ r ∈ v.roots, v.heap.contains r = true) :
    ∃ n v₁, Vm.collect v = .ok n v₁ ∧ v.Swept v₁ := by
  obtain ⟨freed, h₁, hrun, hframe, hk, hs₁⟩ := hs.collect hl
  have hlive : ∀ r ∈ v.roots, h₁.contains r = true := fun r hr =>
    hk.contains.mpr ⟨hl r hr, .root (List.mem_append_right _ hr)⟩
  unfold Vm.collect
  rw [hrun]
  refine ⟨freed, _, rfl, ?_⟩
  dsimp only [Vm.trace, modify, modifyGet, MonadStateOf.modifyGet, EStateM.modifyGet]
  split
  · exact ⟨rfl, hk.remains hframe, hs₁, hlive⟩
  · exact ⟨rfl, hk.remains hframe, hs₁, hlive⟩

/-- Neither does the look at the collector before each instruction. -/
theorem Vm.tick_swept (hs : v.heap.Sound) (hl : ∀ r ∈ v.roots, v.heap.contains r = true) :
    ∃ v₁, Vm.tick v = .ok () v₁ ∧ v.Swept v₁ := by
  let u : Vm := { v with ticks := v.ticks + 1 }
  have hrun : Vm.tick v =
      (if u.ticks % max u.config.gcCheckInterval 1 == 0 && u.heap.shouldCollect then
        Vm.collect >>= fun _ => pure () else pure () : Action Unit) u := rfl
  rw [hrun]
  split
  · obtain ⟨n, v₁, hcollect, hsw⟩ := Vm.collect_swept (v := u) hs hl
    rw [Action.bind_run, hcollect]
    exact ⟨v₁, rfl, hsw.state, hsw.remains, hsw.sound, hsw.live⟩
  · exact ⟨u, rfl, rfl, .refl _, hs, hl⟩

/-- A collection on both sides, or on one of them: the pairs that are left relate what is left. -/
theorem Vm.Related.swept (h : v.Related ρ w) (hv : v.Swept v₁) (hw : w.Swept w₁) :
    v₁.Related (Heap.survivors ρ v₁.heap w₁.heap) w₁ := by
  have himp : ∀ x ∈ v.roots, ∀ y ∈ w.roots, ρ x y → Heap.survivors ρ v₁.heap w₁.heap x y :=
    fun x hx y hy hxy => ⟨hxy, hv.live x hx, hw.live y hy⟩
  have hheap := h.heap.survivors hv.remains hw.remains hv.sound hw.sound
  rw [hv.state, hw.state]
  refine { heap := hheap, task := h.task, config := h.config, registry := h.registry
           stack := ?_, frames := ?_, temps := ?_, classes := ?_, globals := ?_, modules := ?_
           loops := h.loops, output := h.output }
  · exact forall₂_imp h.stack fun x hx y hy => himp x (mem_roots_stack hx) y (mem_roots_stack hy)
  · refine forall₂_imp h.frames fun f hf g hg hfg => ?_
    exact hfg.imp fun x hx y hy => himp x (mem_roots_frame hf hx) y (mem_roots_frame hg hy)
  · exact forall₂_imp h.temps fun x hx y hy => himp x (mem_roots_temps hx) y (mem_roots_temps hy)
  · exact h.classes.imp fun x hx y hy =>
      himp x (mem_roots_classes hx) y (mem_roots_classes hy)
  · exact h.globals.imp fun x hx y hy =>
      himp x (mem_roots_globals hx) y (mem_roots_globals hy)
  · exact h.modules.imp fun x hx y hy =>
      himp x (mem_roots_modules hx) y (mem_roots_modules hy)

end ObjectMachine
