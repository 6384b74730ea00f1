import ObjectMachine.Proofs.Machine.Isolation

/-!
# ObjectMachine.Proofs.Machine.Loops

Interpreter loops grow on top of what they were entered from, and leave it as it was.

* `Context.Within` — the frames of a loop, on top of what it was entered from.
* `Vm.stepLoop_ends` — an instruction goes on with the loop, or the loop is over and nothing is left
  of it. The operands below the running frame stay in any case.
-/

namespace ObjectMachine

open ObjectMachine.Action

/-! ## The frames of a loop -/

/-- `c` is `d` with an interpreter loop whose frames are `inner`. The first of them stands on the
operands of `d`, and each of the others on the operands of those before it. -/
structure Context.Within (d : Context) (inner : List ActiveFrame) (c : Context) : Prop where
  frames : c.frames.toList = d.frames.toList ++ inner
  nonempty : inner ≠ []
  first : ∀ f ∈ inner.head?, f.base = d.stack.size
  ascending : inner.Pairwise fun f g => f.base ≤ g.base
  height : ∀ f ∈ inner, f.base ≤ c.stack.size
  stack : d.stack.toList <+: c.stack.toList
  rest : c = { d with stack := c.stack, frames := c.frames, loops := d.loops + 1 }

/-- The running frame has `n` operands. -/
def Context.HasOperands (c : Context) (n : Nat) : Prop :=
  ∃ (outer : Array ActiveFrame) (f : ActiveFrame),
    c.frames = outer.push f ∧ f.base + n ≤ c.stack.size

namespace Context.Within

variable {c d : Context} {inner : List ActiveFrame}

theorem of_pushLoop (f : ActiveFrame) :
    d.Within [{ f with base := d.stack.size }] (d.pushLoop f) where
  frames := by simp [pushLoop, pushFrame]
  nonempty := by simp
  first := by simp
  ascending := by simp
  height := by simp [pushLoop, pushFrame]
  stack := List.prefix_rfl
  rest := rfl

section Running

variable {init : List ActiveFrame} {f : ActiveFrame} {low high : Array Ref}

theorem frames_eq (h : d.Within (init ++ [f]) c) :
    c.frames = (d.frames ++ init.toArray).push f := by
  apply Array.ext'
  simp [h.frames]

theorem base_le_last (h : d.Within (init ++ [f]) c) : ∀ g ∈ init ++ [f], g.base ≤ f.base := by
  intro g hg
  have hp := h.ascending
  rw [List.pairwise_append] at hp
  rcases List.mem_append.mp hg with hg | hg
  · exact hp.2.2 g hg f (by simp)
  · rw [List.mem_singleton.mp hg]

theorem le_base (h : d.Within (init ++ [f]) c) : d.stack.size ≤ f.base := by
  cases init with
  | nil => exact Nat.le_of_eq (h.first f (by simp)).symm
  | cons g init =>
    rw [← h.first g (by simp)]
    exact h.base_le_last g (by simp)

/-- The operands that the running frame stands on include those of `d`. -/
theorem prefix_low (h : d.Within (init ++ [f]) c) (hs : c.stack = low ++ high)
    (hlow : low.size = f.base) : d.stack.toList <+: low.toList := by
  have hp := h.stack
  rw [hs, Array.toList_append] at hp
  refine List.prefix_of_prefix_length_le hp (List.prefix_append _ _) ?_
  have := h.le_base
  simp only [Array.length_toList]
  omega

/-- The running frame goes on with other operands. -/
theorem go_on (h : d.Within (init ++ [f]) c) (hs : c.stack = low ++ high)
    (hlow : low.size = f.base) (ip : Nat) (high' : Array Ref) :
    d.Within (init ++ [{ f with ip := ip }])
      { c with
        stack := low ++ high'
        frames := (d.frames ++ init.toArray).push { f with ip := ip } } where
  frames := by simp
  nonempty := by simp
  first g hg := by
    cases init with
    | nil =>
      obtain rfl : { f with ip := ip } = g := by simpa using hg
      exact h.first f (by simp)
    | cons g' init => exact h.first g (by simpa using hg)
  ascending := by
    have hp := h.ascending
    rw [List.pairwise_append] at hp ⊢
    refine ⟨hp.1, by simp, fun g hg g' hg' => ?_⟩
    obtain rfl : g' = { f with ip := ip } := by simpa using hg'
    exact hp.2.2 g hg f (by simp)
  height g hg := by
    have hle : g.base ≤ f.base := by
      rcases List.mem_append.mp hg with hg | hg
      · exact h.base_le_last g (by simp [hg])
      · obtain rfl : g = { f with ip := ip } := by simpa using hg
        exact Nat.le_refl _
    simp only [Array.size_append]
    omega
  stack := by
    rw [Array.toList_append]
    exact (h.prefix_low hs hlow).trans (List.prefix_append _ _)
  rest := by
    have hr := h.rest
    rw [Context.ext_iff] at hr ⊢
    exact ⟨rfl, rfl, hr.2.2⟩

/-- One more frame, on all operands. -/
theorem push_frame (h : d.Within inner c) {g : ActiveFrame} (hg : g.base = c.stack.size) :
    d.Within (inner ++ [g]) { c with frames := c.frames.push g } where
  frames := by simp [h.frames]
  nonempty := by simp
  first f hf := by
    obtain ⟨first, rest, rfl⟩ := List.exists_cons_of_ne_nil h.nonempty
    exact h.first f (by simpa using hf)
  ascending := by
    rw [List.pairwise_append]
    refine ⟨h.ascending, by simp, fun f hf g' hg' => ?_⟩
    rw [List.mem_singleton.mp hg', hg]
    exact h.height f hf
  height f hf := by
    rcases List.mem_append.mp hf with hf | hf
    · exact h.height f hf
    · rw [List.mem_singleton.mp hf, hg]
  stack := h.stack
  rest := by
    have hr := h.rest
    rw [Context.ext_iff] at hr ⊢
    exact ⟨rfl, rfl, hr.2.2⟩

/-- The running frame returns to another one of the loop, which gets the value. -/
theorem pop_frame (h : d.Within (init ++ [f]) c) (hs : c.stack = low ++ high)
    (hlow : low.size = f.base) (hinit : init ≠ []) (v : Ref) :
    d.Within init { c with stack := low.push v, frames := d.frames ++ init.toArray } where
  frames := by simp
  nonempty := hinit
  first g hg := by
    obtain ⟨first, rest, rfl⟩ := List.exists_cons_of_ne_nil hinit
    exact h.first g (by simpa using hg)
  ascending := (List.pairwise_append.mp h.ascending).1
  height g hg := by
    have := h.base_le_last g (by simp [hg])
    simp only [Array.size_push]
    omega
  stack := by
    rw [Array.toList_push]
    exact (h.prefix_low hs hlow).trans (List.prefix_append _ _)
  rest := by
    have hr := h.rest
    rw [Context.ext_iff] at hr ⊢
    exact ⟨rfl, rfl, hr.2.2⟩

/-- The first frame of the loop returns: what is left is what the loop was entered from. -/
theorem pop_last (h : d.Within [f] c) (hs : c.stack = low ++ high) (hlow : low.size = f.base) :
    ({ c with stack := low, frames := d.frames, loops := c.loops - 1 } : Context) = d := by
  have hp : d.stack.toList = low.toList := by
    have h' : d.Within ([] ++ [f]) c := h
    refine (h'.prefix_low hs hlow).eq_of_length ?_
    simp [hlow, h.first f (by simp)]
  have hr := h.rest
  rw [Context.ext_iff] at hr ⊢
  refine ⟨Array.ext' hp.symm, rfl, hr.2.2.1, ?_, hr.2.2.2.2⟩
  have : c.loops = d.loops + 1 := hr.2.2.2.1
  simp [this]

/-- A failure takes away all frames of the loop at once. -/
theorem unwind (h : d.Within inner c) :
    ({ c with
      stack := c.stack.shrink d.stack.size
      frames := c.frames.shrink d.frames.size
      loops := c.loops - 1 } : Context) = d := by
  have hr := h.rest
  rw [Context.ext_iff] at hr ⊢
  refine ⟨Array.ext' ?_, Array.ext' ?_, hr.2.2.1, ?_, hr.2.2.2.2⟩
  · simpa using (List.prefix_iff_eq_take.mp h.stack).symm
  · simp [h.frames]
  · have : c.loops = d.loops + 1 := hr.2.2.2.1
    simp [this]

end Running

end Context.Within

/-! ## One instruction -/

instance Quiet.counting :
    Quiet (modify fun vm => { vm with ticks := vm.ticks + 1 } : Action Unit) :=
  changing (fun _ => rfl) fun _ _ _ => rfl

instance Steady.tick : Steady Vm.tick := by
  unfold Vm.tick
  refine @Steady.bind _ _ _ _ _ fun _ => @Steady.get_bind _ _ fun vm => ?_
  split <;> infer_instance

namespace Context

variable {d : Context} {inner : List ActiveFrame}

/-- How an instruction ends in a loop that was entered from `d`. -/
def LoopEnds (d : Context) : EStateM.Result Stop Vm Flow → Prop
  | .ok .next vm => ∃ inner, d.Within inner vm.context
  | .ok (.leave _) vm => vm.context = d
  | .ok (.call _ _ n) vm | .ok (.wait _ n) vm =>
    (∃ inner, d.Within inner vm.context) ∧ vm.context.HasOperands n
  | .error e vm =>
    (∃ inner, d.Within inner vm.context) ∧ ∀ n height, e ≠ .fatal (.operandRange n height)

/-- The running frame, and the operands it stands on. -/
theorem Within.split {c : Context} (h : d.Within inner c) :
    ∃ init f low high, inner = init ++ [f] ∧ c.stack = low ++ high ∧ low.size = f.base := by
  obtain ⟨init, f, rfl⟩ : ∃ init f, inner = init ++ [f] :=
    ⟨_, _, (List.dropLast_append_getLast h.nonempty).symm⟩
  have hle := h.height f (by simp)
  refine ⟨init, f, c.stack.extract 0 f.base, c.stack.extract f.base c.stack.size, rfl, ?_, ?_⟩
  · simp [Nat.max_eq_right hle]
  · simp only [Array.size_extract]
    omega

/-- The running frame stands below its operands. -/
theorem Within.operands_le {c : Context} {init : List ActiveFrame} {f : ActiveFrame} {n : Nat}
    (h : d.Within (init ++ [f]) c) (hn : c.HasOperands n) : f.base + n ≤ c.stack.size := by
  obtain ⟨outer, g, hf, hle⟩ := hn
  have hlast : g = f := by
    have := h.frames
    rw [hf, Array.toList_push, ← List.append_assoc] at this
    exact (List.append_inj_right' this rfl) |> List.singleton_inj.mp
  rw [← hlast]
  exact hle

/-- The place of the running frame. -/
theorem Within.place {vm : Vm} {init : List ActiveFrame} {f : ActiveFrame} {low high : Array Ref}
    (h : d.Within (init ++ [f]) vm.context) (hs : vm.stack = low ++ high) :
    Place.Holds ⟨vm.context, d.frames ++ init.toArray, f⟩ 0 (vm.restack high) ∧
      (vm.restack high).onto low = vm := by
  refine ⟨⟨⟨f.ip, h.frames_eq⟩, rfl, Nat.zero_le _⟩, ?_⟩
  show { vm with stack := low ++ high } = vm
  rw [← hs]

end Context

namespace Place

variable {vm : Vm} {d : Context} {init : List ActiveFrame} {f : ActiveFrame}
  {low high : Array Ref}

/-- While the frame stays at its place, the loop goes on. -/
theorem Holds.within {own : Vm} {n : Nat} (hw : d.Within (init ++ [f]) vm.context)
    (hs : vm.stack = low ++ high) (hlow : low.size = f.base)
    (h : Place.Holds ⟨vm.context, d.frames ++ init.toArray, f⟩ n own) :
    (∃ ip, d.Within (init ++ [{ f with ip := ip }]) (own.onto low).context) ∧
      (own.onto low).context.HasOperands n := by
  obtain ⟨ip, hf⟩ := h.frames
  have hctx : (own.onto low).context =
      { vm.context with
        stack := low ++ own.stack
        frames := (d.frames ++ init.toArray).push { f with ip := ip } } := by
    have := h.context
    rw [Context.ext_iff] at this ⊢
    exact ⟨rfl, hf, this.2.2⟩
  refine ⟨⟨ip, hctx ▸ hw.go_on hs hlow ip own.stack⟩, _, _, hf, ?_⟩
  have := h.height
  show f.base + n ≤ (low ++ own.stack).size
  rw [Array.size_append]
  omega

theorem Entered.within {own : Vm} (hw : d.Within (init ++ [f]) vm.context)
    (hs : vm.stack = low ++ high) (hlow : low.size = f.base)
    (h : Place.Entered ⟨vm.context, d.frames ++ init.toArray, f⟩ own) :
    ∃ inner, d.Within inner (own.onto low).context := by
  obtain ⟨ip, g, hf, hg⟩ := h.frames
  have hctx : (own.onto low).context =
      { vm.context with
        stack := low ++ own.stack
        frames := ((d.frames ++ init.toArray).push { f with ip := ip }).push g } := by
    have := h.context
    rw [Context.ext_iff] at this ⊢
    exact ⟨rfl, hf, this.2.2⟩
  rw [hctx]
  exact ⟨_, (hw.go_on hs hlow ip own.stack).push_frame (by simp [hg, hlow])⟩

end Place

namespace Vm

variable {d : Context} {inner init : List ActiveFrame} {f : ActiveFrame} {low high : Array Ref}

theorem trace_ok (on : Channels → Bool) (channel : String) (text : Vm → String) (vm : Vm) :
    ∃ vm', trace on channel text vm = .ok () vm' ∧ vm'.context = vm.context := by
  refine ⟨_, rfl, ?_⟩
  dsimp only
  split <;> rfl

theorem leaveFrame_run {vm : Vm} {outer : Array ActiveFrame} (hf : vm.frames = outer.push f) :
    ∃ vm', leaveFrame vm = .ok () vm' ∧
      vm'.context = { vm.context with frames := outer, stack := vm.stack.shrink f.base } := by
  obtain ⟨vm', hrun, hctx⟩ := trace_ok Channels.vm "vm" (fun _ => s!"leave {f.unit.name}")
    { vm with frames := vm.frames.pop, stack := vm.stack.shrink f.base }
  refine ⟨vm', ?_, hctx.trans ?_⟩
  · unfold leaveFrame
    rw [bind_ok (top_push hf)]
    exact hrun
  · show ({ vm.context with frames := vm.frames.pop, stack := vm.stack.shrink f.base } : Context) = _
    rw [hf, Array.pop_push]

/-- A frame returns: to another one of the loop, or the loop is over. -/
theorem returnFrom_ends {vm : Vm} (h : d.Within (init ++ [f]) vm.context)
    (hs : vm.stack = low ++ high) (hlow : low.size = f.base) (v : Ref) :
    d.LoopEnds (returnFrom d.frames.size v vm) ∧
      low.toList <+: (final (returnFrom d.frames.size v vm)).stack.toList := by
  have hf : vm.frames = (d.frames ++ init.toArray).push f := h.frames_eq
  have hshrink : vm.stack.shrink f.base = low := by
    rw [hs, ← hlow]
    simp
  obtain ⟨vm', hrun, hctx⟩ := leaveFrame_run hf
  rw [hshrink] at hctx
  have hframes : vm'.frames = d.frames ++ init.toArray := congrArg Context.frames hctx
  have hstack : vm'.stack = low := congrArg Context.stack hctx
  unfold returnFrom
  rw [bind_ok hrun]
  show d.LoopEnds ((ite (vm'.frames.size ≤ d.frames.size) _ _ : Action Flow) vm') ∧
    low.toList <+: (final ((ite (vm'.frames.size ≤ d.frames.size) _ _ : Action Flow) vm')).stack.toList
  rw [hframes, Array.size_append]
  by_cases hinit : init = []
  · -- the first frame of the loop: the operands are those of `d` again
    subst hinit
    rw [if_pos (by simp)]
    refine ⟨?_, by rw [← hstack]; exact List.prefix_rfl⟩
    show ({ vm'.context with loops := vm'.context.loops - 1 } : Context) = d
    rw [hctx]
    simpa using h.pop_last hs hlow
  · have hpos : ¬ d.frames.size + init.toArray.size ≤ d.frames.size := by
      have := List.length_pos_iff.mpr hinit
      simp only [List.size_toArray]
      omega
    rw [if_neg hpos]
    refine ⟨⟨init, ?_⟩, ?_⟩
    · show d.Within init { vm'.context with stack := vm'.stack.push v }
      rw [hctx, hstack]
      exact h.pop_frame hs hlow hinit v
    · show low.toList <+: (vm'.stack.push v).toList
      rw [hstack, Array.toList_push]
      exact List.prefix_append _ _

/-- What an instruction does, before a frame that is over is dropped. -/
theorem perform_ends {vm : Vm} (h : d.Within (init ++ [f]) vm.context)
    (hs : vm.stack = low ++ high) (hlow : low.size = f.base) :
    (∃ v vm' ip high', perform vm = .ok (.leave v) vm' ∧ vm'.stack = low ++ high' ∧
      d.Within (init ++ [{ f with ip := ip }]) vm'.context) ∨
    ((∀ v vm', perform vm ≠ .ok (.leave v) vm') ∧ d.LoopEnds (perform vm) ∧
      low.toList <+: (final (perform vm)).stack.toList) := by
  obtain ⟨hplace, honto⟩ := h.place hs
  obtain ⟨out, hout, hrun⟩ := Isolated.perform (vm.restack high) hplace
  have hrun := hrun low hlow
  rw [honto] at hrun
  have hlower : ∀ own : Vm, low.toList <+: (own.onto low).stack.toList := by
    intro own
    simp [onto]
  rw [hrun]
  cases out with
  | error e own =>
    obtain ⟨⟨ip, hw⟩, -⟩ := hout.1.within h hs hlow
    exact .inr ⟨by rintro _ _ ⟨⟩, ⟨⟨_, hw⟩, hout.2⟩, hlower own⟩
  | ok flow own =>
    cases hout with
    | next hp =>
      obtain ⟨⟨ip, hw⟩, -⟩ := hp.within h hs hlow
      exact .inr ⟨by rintro _ _ ⟨⟩, ⟨_, hw⟩, hlower own⟩
    | entered hp => exact .inr ⟨by rintro _ _ ⟨⟩, hp.within h hs hlow, hlower own⟩
    | leave hp =>
      obtain ⟨⟨ip, hw⟩, -⟩ := hp.within h hs hlow
      exact .inl ⟨_, _, ip, own.stack, rfl, rfl, hw⟩
    | call hp =>
      obtain ⟨⟨ip, hw⟩, hn⟩ := hp.within h hs hlow
      exact .inr ⟨by rintro _ _ ⟨⟩, ⟨⟨_, hw⟩, hn⟩, hlower own⟩
    | wait hp =>
      obtain ⟨⟨ip, hw⟩, hn⟩ := hp.within h hs hlow
      exact .inr ⟨by rintro _ _ ⟨⟩, ⟨⟨_, hw⟩, hn⟩, hlower own⟩

/-- An instruction in a loop that was entered from `d`. -/
theorem stepLoop_ends {vm : Vm} (h : d.Within (init ++ [f]) vm.context)
    (hs : vm.stack = low ++ high) (hlow : low.size = f.base) :
    d.LoopEnds (stepLoop d.frames.size vm) ∧
      low.toList <+: (final (stepLoop d.frames.size vm)).stack.toList := by
  unfold stepLoop performIn
  rcases Steady.cases tick vm with ⟨e, vm₁, ht, hctx, he⟩ | ⟨_, vm₁, ht, hctx⟩
  · rw [bind_error ht]
    refine ⟨⟨⟨_, hctx ▸ h⟩, he⟩, ?_⟩
    show low.toList <+: vm₁.stack.toList
    rw [show vm₁.stack = vm.stack from congrArg Context.stack hctx, hs, Array.toList_append]
    exact List.prefix_append _ _
  · rw [bind_ok ht]
    rw [← hctx] at h
    have hs : vm₁.stack = low ++ high := (congrArg Context.stack hctx).trans hs
    rcases perform_ends h hs hlow with ⟨v, vm', ip, high', hp, hs', h'⟩ | ⟨hleave, hends, hlower⟩
    · rw [bind_ok hp]
      exact returnFrom_ends h' hs' hlow v
    · cases hp : perform vm₁ with
      | error e vm' =>
        rw [bind_error hp]
        rw [hp] at hends hlower
        exact ⟨hends, hlower⟩
      | ok flow vm' =>
        rw [bind_ok hp]
        rw [hp] at hends hlower
        cases flow with
        | leave v => exact absurd hp (hleave v vm')
        | next => exact ⟨hends, hlower⟩
        | call => exact ⟨hends, hlower⟩
        | wait => exact ⟨hends, hlower⟩

/-- The value of a call takes the place of the operands that the call left. -/
theorem replace_ends {vm : Vm} {n : Nat} (h : d.Within inner vm.context)
    (hn : vm.context.HasOperands n) (v : Ref) :
    (∃ e vm', replace n v vm = .error e vm' ∧ (∃ inner, d.Within inner vm'.context) ∧
      ∀ n height, e ≠ .fatal (.operandRange n height)) ∨
    ∃ vm', replace n v vm = .ok () vm' ∧ ∃ inner, d.Within inner vm'.context := by
  obtain ⟨init, f, low, high, rfl, hs, hlow⟩ := h.split
  obtain ⟨hplace, honto⟩ := h.place hs
  have hheight : n ≤ high.size := by
    have hle := h.operands_le hn
    rw [hs, Array.size_append] at hle
    omega
  have hplace : Place.Holds ⟨vm.context, d.frames ++ init.toArray, f⟩ n (vm.restack high) :=
    ⟨hplace.frames, hplace.context, hheight⟩
  obtain ⟨out, hout, hrun⟩ := Isolated.replace (Nat.le_refl n) v (vm.restack high) hplace
  have hrun := hrun low hlow
  rw [honto] at hrun
  cases out with
  | error e own =>
    obtain ⟨⟨ip, hw⟩, -⟩ := hout.1.within h hs hlow
    exact .inl ⟨e, _, hrun, ⟨_, hw⟩, hout.2⟩
  | ok _ own =>
    obtain ⟨⟨ip, hw⟩, -⟩ := hout.within h hs hlow
    exact .inr ⟨_, hrun, _, hw⟩

end Vm
end ObjectMachine
