import ObjectMachine.Proofs.Machine.CallSteps

/-!
# ObjectMachine.Proofs.Machine.CallEnds

How calls end.

* `Outcome.Ends` — the end of a call, given what its requests were told.
* `CallSite.SameEnd` — the same end of both ways to call.
* `CallSite.return_ends`, `CallSite.raise_ends` — when the callee returns or fails, both ways end
  the same.
* `CallSite.unwind_ends` — so they do when the callee cannot be entered.
-/

namespace ObjectMachine

open ObjectMachine.Action

/-! ## The end of a call -/

/-- The call is over: its value has been handed to the caller, whose loop goes on with as many
frames as it had, or its failure has gone beyond that loop. The caller waits with `ks`. -/
def CallSite.Over (s : CallSite) (ks : List Kont) (m : Machine) : Prop :=
  m.konts.length < ks.length ∨ m.konts = ks ∧ m.mode = .running ∧ m.vm.frames.size = s.frames.size

/-- A request of a call, and what it was told. -/
abbrev Exchange := Request × Machine.Answer

/-- What a call comes to until it is over, with the exchanges on the way. -/
inductive Outcome.Visits (ended : Machine → Prop) : Outcome → List Exchange → Outcome → Prop where
  | here (o : Outcome) : Visits ended o [] o
  | step {m : Machine} {x : List Exchange} {o : Outcome} :
      ¬ ended m → Visits ended m.step x o → Visits ended (.next m) x o
  | answer {m : Machine} {request : Request} {a : Machine.Answer} {x : List Exchange}
      {o : Outcome} :
      Visits ended (m.resume a) x o → Visits ended (.blocked m request) ((request, a) :: x) o

/-- There is nothing more to come of the call. -/
def Outcome.Finished (ended : Machine → Prop) : Outcome → Prop
  | .next m => ended m
  | .blocked _ _ => False
  | .done _ _ | .fatal _ _ | .crashed _ => True

/-- The call ends in `e` after the exchanges. -/
def Outcome.Ends (ended : Machine → Prop) (o : Outcome) (x : List Exchange) (e : Outcome) : Prop :=
  o.Visits ended x e ∧ e.Finished ended

namespace Outcome.Ends

variable {ended : Machine → Prop} {o e e' : Outcome} {x : List Exchange} {m : Machine}

theorem here (h : e.Finished ended) : e.Ends ended [] e :=
  ⟨.here e, h⟩

theorem step (hm : ¬ ended m) (h : m.step.Ends ended x e) : (Outcome.next m).Ends ended x e :=
  ⟨.step hm h.1, h.2⟩

theorem answer {request : Request} {a : Machine.Answer} (h : (m.resume a).Ends ended x e) :
    (Outcome.blocked m request).Ends ended ((request, a) :: x) e :=
  ⟨.answer h.1, h.2⟩

theorem of_next (hm : ¬ ended m) (h : (Outcome.next m).Ends ended x e) : m.step.Ends ended x e := by
  obtain ⟨hvisits, hfin⟩ := h
  cases hvisits with
  | here => exact absurd hfin hm
  | step _ hvisits => exact ⟨hvisits, hfin⟩

/-- A call that ends without any exchange ends in no other way. -/
theorem unique (h : o.Ends ended [] e) (h' : o.Ends ended x e') : x = [] ∧ e' = e := by
  obtain ⟨hvisits, hfin⟩ := h
  generalize hy : ([] : List Exchange) = y at hvisits
  induction hvisits with
  | here o =>
    obtain ⟨hvisits', -⟩ := h'
    cases hvisits' with
    | here => exact ⟨rfl, rfl⟩
    | step hnot _ => exact absurd hfin hnot
    | answer _ => exact hfin.elim
  | step hnot _ ih => exact ih (h'.of_next hnot) hfin hy
  | answer _ _ => cases hy

end Outcome.Ends

/-- How the two ways to call end: with the same state and one value for the caller, or unwound to
the heights `floor` and `base` with the same value raised; then the traces may differ. -/
inductive CallSite.SameEnd (s : CallSite) (floor base : Nat) (outer : List Kont) :
    Outcome → Outcome → Prop where
  | returned {vm : Vm} {v : Ref} : vm.stack = s.below.push v → vm.frames = s.frames →
      SameEnd s floor base outer (.next ⟨vm, .loop floor base :: outer, .running⟩)
        (.next ⟨vm, .loop floor base :: outer, .running⟩)
  | failed {vm : Vm} {v : Ref} (log : List String) : vm.stack = s.below.shrink base →
      vm.frames = s.frames.shrink floor →
      SameEnd s floor base outer (.next ⟨{ vm with log := log }, outer, .raising (.panic v)⟩)
        (.next ⟨vm, outer, .raising (.panic v)⟩)
  | fatal {vm vm' : Vm} (f : Fatal) : SameEnd s floor base outer (.fatal vm f) (.fatal vm' f)
  | crashed {vm vm' : Vm} : SameEnd s floor base outer (.crashed vm) (.crashed vm')

namespace CallSite

variable {s : CallSite} {ks konts outer : List Kont} {vm : Vm} {c₀ : Context} {floor base : Nat}

theorem SameEnd.finished {o o' : Outcome} (h : s.SameEnd floor base outer o o') :
    o.Finished (s.Over (.loop floor base :: outer)) ∧
      o'.Finished (s.Over (.loop floor base :: outer)) := by
  cases h with
  | returned _ hframes =>
    exact ⟨.inr ⟨rfl, rfl, congrArg _ hframes⟩, .inr ⟨rfl, rfl, congrArg _ hframes⟩⟩
  | failed _ _ _ => exact ⟨.inl (Nat.lt_succ_self _), .inl (Nat.lt_succ_self _)⟩
  | fatal f => exact ⟨trivial, trivial⟩
  | crashed => exact ⟨trivial, trivial⟩

/-- Both ways end the same with this step or a few more. -/
def EndsAlike (s : CallSite) (floor base : Nat) (outer : List Kont) (o o' : Outcome) : Prop :=
  ∃ e e', o.Ends (s.Over (.loop floor base :: outer)) [] e ∧
    o'.Ends (s.Over (.loop floor base :: outer)) [] e' ∧ s.SameEnd floor base outer e e'

theorem EndsAlike.here {o o' : Outcome} (h : s.SameEnd floor base outer o o') :
    s.EndsAlike floor base outer o o' :=
  ⟨o, o', .here h.finished.1, .here h.finished.2, h⟩

theorem EndsAlike.inline_ends {o o' e : Outcome} {x : List Exchange}
    (h : s.EndsAlike floor base outer o o')
    (hend : o'.Ends (s.Over (.loop floor base :: outer)) x e) :
    ∃ d, o.Ends (s.Over (.loop floor base :: outer)) x d ∧ s.SameEnd floor base outer d e := by
  obtain ⟨d, e', hd, he, hsame⟩ := h
  obtain ⟨rfl, rfl⟩ := he.unique hend
  exact ⟨d, hd, hsame⟩

theorem EndsAlike.nested_ends {o o' e : Outcome} {x : List Exchange}
    (h : s.EndsAlike floor base outer o o')
    (hend : o.Ends (s.Over (.loop floor base :: outer)) x e) :
    ∃ d, o'.Ends (s.Over (.loop floor base :: outer)) x d ∧ s.SameEnd floor base outer e d := by
  obtain ⟨e', d, he, hd, hsame⟩ := h
  obtain ⟨rfl, rfl⟩ := he.unique hend
  exact ⟨d, hd, hsame⟩

theorem not_over {m : Machine} (h : ks.length < m.konts.length) : ¬ s.Over ks m := by
  rintro (hlt | ⟨heq, -⟩)
  · omega
  · rw [heq] at h
    omega

theorem not_over_raising {vm : Vm} {e : Error} : ¬ s.Over ks ⟨vm, ks, .raising e⟩ := by
  rintro (hlt | ⟨-, hmode, -⟩)
  · exact absurd hlt (Nat.lt_irrefl _)
  · cases hmode

/-- A nested call is not over while it has its own loop. -/
theorem nested_not_over (m : Machine) : ¬ s.Over ks (s.machine ks .nested m) := by
  apply not_over
  show ks.length < (m.konts.map (Kont.above s .nested) ++ s.rest ks .nested).length
  rw [List.length_append]
  simp only [rest, List.length_cons]
  omega

/-- Neither is an inline call, since its frame is still there. -/
theorem inline_not_over {m : Machine} (hb : (s.machine ks .nested m).Balanced c₀) :
    ¬ s.Over ks (s.machine ks .inline m) := by
  obtain ⟨vm, konts, mode⟩ := m
  cases konts with
  | cons k konts =>
    apply not_over
    show ks.length < ((k :: konts).map (Kont.above s .inline) ++ ks).length
    rw [List.length_append, List.length_map, List.length_cons]
    omega
  | nil =>
    rintro (hlt | ⟨-, hmode, hsize⟩)
    · exact absurd hlt (Nat.lt_irrefl _)
    · obtain ⟨floor, base, ks', hk⟩ := hb.running hmode
      obtain ⟨outer, f, hf, -⟩ := running_operands hb.konts hk
      have hf : vm.frames = outer.push f := hf
      have hsize : (s.above .inline vm).frames.size = s.frames.size := hsize
      rw [above_size, hf, Array.size_push] at hsize
      omega

end CallSite

/-! ## Returning from the call -/

/-- The top operands are dropped. -/
theorem Vm.drop_run {vm : Vm} {low operands : Array Ref} (h : vm.stack = low ++ operands) :
    drop operands.size vm = .ok () (vm.restack low) := by
  have hbelow : below operands.size vm = .ok low.size vm := by
    unfold below
    show (ite (operands.size ≤ vm.stack.size) _ _ : Action Nat) vm = _
    rw [h, Array.size_append, if_pos (by omega), Nat.add_sub_cancel]
    rfl
  unfold drop
  rw [bind_ok hbelow]
  show EStateM.Result.ok () (vm.restack (vm.stack.shrink low.size)) = _
  rw [h]
  simp

section Operands

variable {vm : Vm} {f : ActiveFrame} {r : Ref} {low : Array Ref}

theorem Vm.get_run : (get : Action Vm) vm = .ok vm vm := rfl

theorem Vm.top_run (hf : vm.frames.back? = some f) : top vm = .ok f vm := by
  unfold top
  rw [bind_ok get_run, hf]
  rfl

theorem Vm.need_run {n : Nat} (hf : vm.frames.back? = some f) (hn : f.base + n ≤ vm.stack.size) :
    need n vm = .ok () vm := by
  unfold need
  rw [bind_ok (top_run hf)]
  show (ite (vm.stack.size < f.base + n) _ _ : Action Unit) vm = _
  rw [if_neg (by omega)]
  rfl

theorem Vm.peek_run {n : Nat} (hf : vm.frames.back? = some f)
    (hbase : f.base + (n + 1) ≤ vm.stack.size)
    (hr : vm.stack[vm.stack.size - (n + 1)]? = some r) : peek n vm = .ok r vm := by
  have hbelow : Vm.below (n + 1) vm = .ok (vm.stack.size - (n + 1)) vm := by
    unfold Vm.below
    show (ite (n + 1 ≤ vm.stack.size) _ _ : Action Nat) vm = _
    rw [if_pos (by omega)]
    rfl
  unfold peek
  rw [bind_ok (need_run hf hbase), bind_ok hbelow, bind_ok get_run, hr]
  rfl

theorem Vm.pop_run (hf : vm.frames.back? = some f) (hbase : f.base ≤ low.size)
    (hstack : vm.stack = low.push r) : pop vm = .ok r (vm.restack low) := by
  have hpeek : peek 0 vm = .ok r vm := peek_run hf (by simp [hstack]; omega) (by simp [hstack])
  have hdrop : drop 1 vm = .ok () (vm.restack low) := @drop_run vm low #[r] (by simp [hstack])
  unfold pop
  rw [bind_ok hpeek, bind_ok hdrop]
  rfl

end Operands

/-- The value of a call takes the place of its operands. -/
theorem Vm.replace_run {vm : Vm} {low operands : Array Ref} (h : vm.stack = low ++ operands)
    (v : Ref) : replace operands.size v vm = .ok () (vm.restack (low.push v)) := by
  unfold replace
  rw [bind_ok (drop_run h)]
  rfl

namespace CallSite

variable {s : CallSite} {konts outer : List Kont} {vm : Vm} {c₀ : Context} {floor base : Nat}

/-- The call returns: the frame of an inline call hands its value to the caller, the loop of a
nested one to the instruction that waits for it. -/
theorem return_ends (hfloor : floor < s.frames.size)
    (hb : c₀.Balanced (s.waits (.loop floor base :: outer) .nested []) (s.above .nested vm).context)
    {v : Ref} {vm' : Vm} (hlast : vm'.frames = #[])
    (hinline : Vm.stepLoop floor (s.above .inline vm) = Vm.handOver floor v (s.above .inline vm'))
    (hnested : Vm.stepLoop s.frames.size (s.above .nested vm) =
      Vm.handOver s.frames.size v (s.above .nested vm')) :
    s.EndsAlike floor base outer
      (Machine.stepRunning (s.above .inline vm) (s.waits (.loop floor base :: outer) .inline []))
      (Machine.stepRunning (s.above .nested vm)
        (s.waits (.loop floor base :: outer) .nested [])) := by
  let ks : List Kont := .loop floor base :: outer
  have hsize : ∀ w, (s.above w vm').frames.size = s.frames.size := by
    intro w
    rw [above_size, hlast]
    rfl
  let left : Vm := { s.above .nested vm' with loops := vm'.loops }
  have hleave : Vm.stepLoop s.frames.size (s.above .nested vm) = .ok (.leave v) left := by
    rw [hnested, Vm.handOver_run, hsize, if_pos (Nat.le_refl _)]
    rfl
  have hempty : vm'.stack = #[] := by
    obtain ⟨-, hheight⟩ := left_context hb hleave
    have hheight : (s.low .nested ++ vm'.stack).size = (s.low .nested).size := hheight
    rw [Array.size_append] at hheight
    exact Array.eq_empty_of_size_eq_zero (by omega)
  let done : Vm := { vm' with stack := s.below.push v, frames := s.frames }
  have hreturned : Vm.stepLoop floor (s.above .inline vm) = .ok .next done := by
    rw [hinline, Vm.handOver_run, hsize, if_neg (by omega)]
    show EStateM.Result.ok Flow.next { vm' with
      stack := (s.below ++ vm'.stack).push v, frames := s.frames ++ vm'.frames.map _ } = _
    rw [hempty, hlast]
    simp [done]
  have hreplace : Vm.replace s.operands.size v left = .ok () done := by
    have hstack : left.stack = s.below ++ s.operands := by
      show s.below ++ s.operands ++ vm'.stack = _
      rw [hempty, Array.append_empty]
    rw [Vm.replace_run hstack]
    show EStateM.Result.ok () { vm' with
      stack := s.below.push v, frames := s.frames ++ vm'.frames.map _ } = _
    rw [hlast]
    simp [done]
  have hsame : s.SameEnd floor base outer (.next ⟨done, ks, .running⟩)
      (.next ⟨done, ks, .running⟩) := .returned rfl rfl
  have hfirst : Machine.stepRunning (s.above .nested vm) (s.waits ks .nested []) =
      .next ⟨left, .operands s.operands.size :: ks, .returning v⟩ :=
    Machine.continueWith_ok hleave
  have hsecond : (⟨left, .operands s.operands.size :: ks, .returning v⟩ : Machine).step =
      .next ⟨done, ks, .running⟩ := Machine.continueWith_ok hreplace
  refine ⟨_, _, ?_, ?_, hsame⟩
  · have hinlined : Machine.stepRunning (s.above .inline vm) (s.waits ks .inline []) =
        .next ⟨done, ks, .running⟩ := Machine.continueWith_ok hreturned
    rw [hinlined]
    exact .here hsame.finished.1
  · rw [hfirst]
    refine .step (not_over (by simp [ks])) ?_
    rw [hsecond]
    exact .here hsame.finished.2

end CallSite

/-! ## Failing -/

theorem shrink_append_of_le {α : Type} {low : Array α} (high : Array α) {n : Nat}
    (h : n ≤ low.size) : (low ++ high).shrink n = low.shrink n := by
  apply Array.ext'
  simp [h]

theorem Vm.trace_log (on : Channels → Bool) (channel : String) (text : Vm → String) (vm : Vm) :
    ∃ log, trace on channel text vm = .ok () { vm with log := log } := by
  by_cases hon : on vm.config.trace = true
  · exact ⟨_, congrArg (EStateM.Result.ok ()) (if_pos hon)⟩
  · exact ⟨vm.log, congrArg (EStateM.Result.ok ()) (if_neg hon)⟩

namespace Machine

/-- Writing a value on the trace fails or not, wherever the loop ends. -/
theorem traceUnwinding_run (v : Ref) (heap : Heap) (config : Config) :
    (∃ f, ∀ floor (vm : Vm), vm.heap = heap → vm.config = config →
      traceUnwinding v floor vm = .error (.fatal f) vm) ∨
    ∀ floor (vm : Vm), vm.heap = heap → vm.config = config →
      ∃ log, traceUnwinding v floor vm = .ok () { vm with log := log } := by
  have hrun : ∀ floor (vm : Vm), vm.heap = heap → vm.config = config →
      traceUnwinding v floor vm =
        (if config.trace.vm then do
          let text ← Vm.display v
          Vm.trace Channels.vm "vm" fun _ => s!"unwinding to depth {floor}: {text}"
        else pure () : Action Unit) vm := by
    rintro floor vm rfl rfl
    rfl
  by_cases hon : config.trace.vm = true
  · cases hd : heap.display v with
    | error f =>
      refine .inl ⟨f, fun floor vm hheap hconfig => ?_⟩
      rw [hrun floor vm hheap hconfig, if_pos hon, bind_error]
      simp only [Vm.display, Action.ofHeap, hheap, hd]
    | ok text =>
      refine .inr fun floor vm hheap hconfig => ?_
      rw [hrun floor vm hheap hconfig, if_pos hon]
      have hdisplay : Vm.display v vm = .ok text vm := by
        simp only [Vm.display, Action.ofHeap, hheap, hd]
      rw [bind_ok hdisplay]
      exact Vm.trace_log _ _ _ vm
  · refine .inr fun floor vm hheap hconfig => ⟨vm.log, ?_⟩
    rw [hrun floor vm hheap hconfig, if_neg hon]
    rfl

section Unwind

variable {e : Error} {v : Ref} {floor base : Nat} {vm vm' : Vm}

/-- A failure whose value cannot be made. -/
theorem unwind_stop {stop : Stop} (hvalue : Vm.raisedValue e vm = .error stop vm') :
    unwind e floor base vm = .error stop vm' := by
  rw [unwind_run, announce, bind_error hvalue]

/-- A failure whose value cannot be shown. -/
theorem unwind_error {stop : Stop} {u : Vm} (hvalue : Vm.raisedValue e vm = .ok v vm')
    (htrace : traceUnwinding v floor vm' = .error stop u) :
    unwind e floor base vm = .error stop u := by
  rw [unwind_run, announce, bind_ok hvalue, bind_error htrace]

theorem unwind_ok {u : Vm} (hvalue : Vm.raisedValue e vm = .ok v vm')
    (htrace : traceUnwinding v floor vm' = .ok () u) :
    unwind e floor base vm = .ok v (u.cut floor base) := by
  have hannounce : announce e floor vm = .ok v u := by
    unfold announce
    rw [bind_ok hvalue, bind_ok htrace]
    rfl
  rw [unwind_run, hannounce]

end Unwind

end Machine

namespace CallSite

variable {s : CallSite} {konts outer : List Kont} {vm : Vm} {c₀ : Context} {floor base : Nat}

/-- Neither a value nor an error comes of the call. -/
theorem stop_ends {a b : Action Ref} {stop : Stop} {u u' vm' : Vm} {ks ks' : List Kont}
    {f g : Ref → Vm → Machine} (hstop : ∀ e, stop ≠ .raised e) (ha : a vm = .error stop u)
    (hb : b vm' = .error stop u') :
    s.EndsAlike floor base outer (Machine.continueWith a vm ks f)
      (Machine.continueWith b vm' ks' g) := by
  unfold Machine.continueWith
  rw [ha, hb]
  cases stop with
  | raised e => exact absurd rfl (hstop e)
  | fatal f => exact .here (.fatal f)
  | crashed => exact .here .crashed

/-- The call fails, with a value to raise. An inline call is unwound once. A nested one is unwound
to where it was called from; there the value is raised again, and its caller is unwound too. -/
theorem panic_ends {e : Error} {v : Ref} {vm' : Vm} (hfloor : floor ≤ s.frames.size)
    (hbase : base ≤ s.below.size)
    (hvalue : ∀ w, Vm.raisedValue e (s.above w vm) = .ok v (s.above w vm'))
    (htrace : ∀ floor u, u.heap = vm'.heap → u.config = vm'.config →
      ∃ log, Machine.traceUnwinding v floor u = .ok () { u with log := log }) :
    s.EndsAlike floor base outer
      (Machine.stepRaising e (s.above .inline vm) (s.waits (.loop floor base :: outer) .inline []))
      (Machine.stepRaising e (s.above .nested vm)
        (s.waits (.loop floor base :: outer) .nested [])) := by
  let ks : List Kont := .loop floor base :: outer
  obtain ⟨log₁, htrace₁⟩ := htrace floor (s.above .inline vm') rfl rfl
  obtain ⟨log₂, htrace₂⟩ := htrace s.frames.size (s.above .nested vm') rfl rfl
  let left : Vm := { vm' with stack := s.low .nested, frames := s.frames, log := log₂ }
  obtain ⟨log₃, htrace₃⟩ := htrace floor left rfl rfl
  let done : Vm :=
    { vm' with
      stack := s.below.shrink base
      frames := s.frames.shrink floor
      loops := vm'.loops - 1
      log := log₃ }
  have hdone₁ : Machine.unwind e floor base (s.above .inline vm) =
      .ok v { done with log := log₁ } := by
    rw [Machine.unwind_ok (hvalue .inline) htrace₁]
    show EStateM.Result.ok v { vm' with
      stack := (s.below ++ vm'.stack).shrink base
      frames := (s.frames ++ vm'.frames.map (s.lift .inline)).shrink floor
      loops := vm'.loops - 1
      log := log₁ } = _
    rw [shrink_append_of_le _ hbase, shrink_append_of_le _ hfloor]
  have hleft : Machine.unwind e s.frames.size (s.low .nested).size (s.above .nested vm) =
      .ok v left := by
    rw [Machine.unwind_ok (hvalue .nested) htrace₂]
    show EStateM.Result.ok v { vm' with
      stack := (s.low .nested ++ vm'.stack).shrink (s.low .nested).size
      frames := (s.frames ++ vm'.frames.map (s.lift .nested)).shrink s.frames.size
      loops := vm'.loops + 1 - 1
      log := log₂ } = _
    simp [left]
  have hdone₂ : Machine.unwind (.panic v) floor base left = .ok v done := by
    have hagain : Vm.raisedValue (.panic v) left = .ok v left := rfl
    rw [Machine.unwind_ok hagain htrace₃]
    show EStateM.Result.ok v { vm' with
      stack := (s.below ++ s.operands).shrink base
      frames := s.frames.shrink floor
      loops := vm'.loops - 1
      log := log₃ } = _
    rw [shrink_append_of_le _ hbase]
  have hsame : s.SameEnd floor base outer
      (.next ⟨{ done with log := log₁ }, outer, .raising (.panic v)⟩)
      (.next ⟨done, outer, .raising (.panic v)⟩) := .failed log₁ rfl rfl
  refine ⟨_, _, ?_, ?_, hsame⟩
  · have hinline : Machine.stepRaising e (s.above .inline vm) (s.waits ks .inline []) =
        .next ⟨{ done with log := log₁ }, outer, .raising (.panic v)⟩ :=
      Machine.continueWith_ok hdone₁
    rw [hinline]
    exact .here hsame.finished.1
  · have hnested : Machine.stepRaising e (s.above .nested vm) (s.waits ks .nested []) =
        .next ⟨left, .operands s.operands.size :: ks, .raising (.panic v)⟩ :=
      Machine.continueWith_ok hleft
    have hagain : (⟨left, ks, .raising (.panic v)⟩ : Machine).step =
        .next ⟨done, outer, .raising (.panic v)⟩ := Machine.continueWith_ok hdone₂
    rw [hnested]
    refine .step (not_over (by simp [ks])) (.step not_over_raising ?_)
    rw [hagain]
    exact .here hsame.finished.2

/-- The call fails. -/
theorem raise_ends (e : Error) (hfloor : floor ≤ s.frames.size) (hbase : base ≤ s.below.size) :
    s.EndsAlike floor base outer
      (Machine.stepRaising e (s.above .inline vm) (s.waits (.loop floor base :: outer) .inline []))
      (Machine.stepRaising e (s.above .nested vm)
        (s.waits (.loop floor base :: outer) .nested [])) := by
  have hquiet : s.AgreesOn vm (Vm.raisedValue e) _ := AgreesOn.quiet _
  rcases hquiet with ⟨n, vm', hover⟩ | ⟨out, -, hrun⟩
  · exact absurd hover (Unraised.ne_raised _ _ _)
  · cases out with
    | error stop vm' =>
      have hstop : ∀ e', stop ≠ .raised e' := by
        rintro e' rfl
        exact Unraised.ne_raised _ _ _ (hrun .inline)
      exact stop_ends hstop (Machine.unwind_stop (hrun .inline))
        (Machine.unwind_stop (hrun .nested))
    | ok v vm' =>
      rcases Machine.traceUnwinding_run v vm'.heap vm'.config with ⟨f, htrace⟩ | htrace
      · have hstop : ∀ e', Stop.fatal f ≠ .raised e' := fun _ => nofun
        exact stop_ends hstop (Machine.unwind_error (hrun .inline) (htrace _ _ rfl rfl))
          (Machine.unwind_error (hrun .nested) (htrace _ _ rfl rfl))
      · exact panic_ends hfloor hbase hrun htrace

/-- A call that fails before it has a frame is unwound from two operand stacks to the same one. -/
theorem unwind_ends (hstack : vm.stack = s.below ++ s.operands)
    (hframes : vm.frames = s.frames) (hbase : base ≤ s.below.size) (e : Error) :
    s.EndsAlike floor base outer
      (Machine.stepRaising e (vm.restack s.below) (.loop floor base :: outer))
      (Machine.stepRaising e vm (.loop floor base :: outer)) := by
  have hblind := Blind.blind (a := Machine.announce e floor) vm s.below
  have hctx := Steady.context (a := Machine.announce e floor) vm
  cases hrun : Machine.announce e floor vm with
  | error stop vm' =>
    rw [hrun] at hblind
    have hstop : ∀ e', stop ≠ .raised e' := by
      rintro e' rfl
      exact Unraised.ne_raised _ _ _ hrun
    have hinline : Machine.unwind e floor base (vm.restack s.below) =
        .error stop (vm'.restack s.below) := by
      rw [Machine.unwind_run, hblind]
      rfl
    have hnested : Machine.unwind e floor base vm = .error stop vm' := by
      rw [Machine.unwind_run, hrun]
    exact stop_ends hstop hinline hnested
  | ok v vm' =>
    rw [hrun] at hblind hctx
    have hstack' : vm'.stack = s.below ++ s.operands := (congrArg Context.stack hctx).trans hstack
    have hframes' : vm'.frames = s.frames := (congrArg Context.frames hctx).trans hframes
    have hshrink : vm'.stack.shrink base = s.below.shrink base := by
      rw [hstack', shrink_append_of_le _ hbase]
    have hinline : Machine.unwind e floor base (vm.restack s.below) =
        .ok v (vm'.cut floor base) := by
      rw [Machine.unwind_run, hblind]
      show EStateM.Result.ok v { vm' with
        frames := vm'.frames.shrink floor
        stack := s.below.shrink base
        loops := vm'.loops - 1 } = _
      rw [← hshrink]
      rfl
    have hnested : Machine.unwind e floor base vm = .ok v (vm'.cut floor base) := by
      rw [Machine.unwind_run, hrun]
    have hsame : s.SameEnd floor base outer
        (.next ⟨vm'.cut floor base, outer, .raising (.panic v)⟩)
        (.next ⟨vm'.cut floor base, outer, .raising (.panic v)⟩) :=
      @SameEnd.failed s floor base outer (vm'.cut floor base) v vm'.log hshrink
        (congrArg (·.shrink floor) hframes')
    dsimp only [Machine.stepRaising]
    rw [Machine.continueWith_ok hinline, Machine.continueWith_ok hnested]
    exact .here hsame

end CallSite
end ObjectMachine
