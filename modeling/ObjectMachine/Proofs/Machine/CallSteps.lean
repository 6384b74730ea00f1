import ObjectMachine.Proofs.Machine.CallSites

/-!
# ObjectMachine.Proofs.Machine.CallSteps

The steps of a callee, on top of its caller.

* `CallSite.machine` — a machine that runs a callee, put on top of its caller.
* `CallSite.StepsAlike` — the same step in both ways to call, unless frames or loops run out.
* `CallSite.raising_alike`, `CallSite.returning_alike`, `CallSite.loop_alike` — the steps of a
  callee that waits for a call of its own, and those of its own loops.
-/

namespace ObjectMachine

open ObjectMachine.Action

/-- A continuation of the callee, on top of the caller: a loop stands higher. -/
def Kont.above (s : CallSite) (w : Way) : Kont → Kont
  | .loop floor base => .loop (s.frames.size + floor) ((s.low w).size + base)
  | k => k

namespace CallSite

/-- What waits for the callee; `ks` is what the caller waits with. -/
def rest (s : CallSite) (ks : List Kont) : Way → List Kont
  | .inline => ks
  | .nested => .loop s.frames.size (s.low .nested).size :: .operands s.operands.size :: ks

/-- The continuations of the callee, on top of those. -/
def waits (s : CallSite) (ks : List Kont) (w : Way) (konts : List Kont) : List Kont :=
  konts.map (Kont.above s w) ++ s.rest ks w

/-- A machine that runs the callee, on top of the caller. -/
def machine (s : CallSite) (ks : List Kont) (w : Way) (m : Machine) : Machine :=
  ⟨s.above w m.vm, s.waits ks w m.konts, m.mode⟩

/-- The same outcome of a step of the callee in both ways. -/
inductive Alike (s : CallSite) (ks : List Kont) : Outcome → Outcome → Prop where
  | next (m : Machine) :
      Alike s ks (.next (s.machine ks .inline m)) (.next (s.machine ks .nested m))
  | blocked (m : Machine) (request : Request) :
      Alike s ks (.blocked (s.machine ks .inline m) request)
        (.blocked (s.machine ks .nested m) request)
  | fatal {vm vm' : Vm} (f : Fatal) : Alike s ks (.fatal vm f) (.fatal vm' f)
  | crashed {vm vm' : Vm} : Alike s ks (.crashed vm) (.crashed vm')

end CallSite

/-- The frames or the loops have run out, on top of what `ks` waits for. -/
def Outcome.Overflown (ks : List Kont) (o : Outcome) : Prop :=
  ∃ m n, o = .next m ∧ m.mode = .raising (.stackOverflow n) ∧ ks.length ≤ m.konts.length

/-- The outcomes are the same, unless frames or loops run out. -/
def CallSite.StepsAlike (s : CallSite) (ks : List Kont) (o o' : Outcome) : Prop :=
  o'.Overflown ks ∨ s.Alike ks o o'

namespace CallSite

variable {s : CallSite} {ks : List Kont} {vm : Vm} {α : Type}

section ContinueWith

variable {konts : List Kont} {f : Way → α → Vm → Machine}

theorem length_le_waits (w : Way) (konts : List Kont) :
    ks.length ≤ (s.waits ks w konts).length := by
  rw [waits, List.length_append]
  cases w with
  | inline =>
    show ks.length ≤ _ + ks.length
    omega
  | nested =>
    show ks.length ≤ _ + (ks.length + 2)
    omega

theorem continueWith_overflows {a : Action α} (h : Overflows (a (s.above .nested vm)))
    {g : α → Vm → Machine} :
    (Machine.continueWith a (s.above .nested vm) (s.waits ks .nested konts) g).Overflown ks := by
  obtain ⟨n, vm', hrun⟩ := h
  unfold Machine.continueWith
  rw [hrun]
  exact ⟨_, n, rfl, rfl, length_le_waits .nested konts⟩

/-- A failure goes to what is waiting. -/
theorem continueWith_error {a b : Action α} {f g : α → Vm → Machine} {e : Stop} {vm' : Vm}
    (ha : a (s.above .inline vm) = .error e (s.above .inline vm'))
    (hb : b (s.above .nested vm) = .error e (s.above .nested vm')) :
    s.Alike ks (Machine.continueWith a (s.above .inline vm) (s.waits ks .inline konts) f)
      (Machine.continueWith b (s.above .nested vm) (s.waits ks .nested konts) g) := by
  unfold Machine.continueWith
  rw [ha, hb]
  cases e with
  | raised e => exact .next ⟨vm', konts, .raising e⟩
  | fatal f => exact .fatal f
  | crashed => exact .crashed

/-- Going on after an action that does the same in both ways. -/
theorem continueWith_alike {a : Action α} {Q : α → Vm → Prop} (h : s.AgreesOn vm a Q)
    (hf : ∀ x vm', Q x vm' → ∃ m, ∀ w, f w x (s.above w vm') = s.machine ks w m) :
    s.StepsAlike ks
      (Machine.continueWith a (s.above .inline vm) (s.waits ks .inline konts) (f .inline))
      (Machine.continueWith a (s.above .nested vm) (s.waits ks .nested konts) (f .nested)) := by
  rcases h with hover | ⟨out, hout, hrun⟩
  · exact .inl (continueWith_overflows hover)
  · right
    cases out with
    | error e vm' => exact continueWith_error (hrun .inline) (hrun .nested)
    | ok x vm' =>
      obtain ⟨m, hm⟩ := hf x vm' hout
      rw [Machine.continueWith_ok (hrun .inline), Machine.continueWith_ok (hrun .nested), hm, hm]
      exact .next m

end ContinueWith

theorem ofReply_above (konts : List Kont) (reply : Reply) (vm : Vm) (w : Way) :
    Machine.ofReply (s.waits ks w konts) (reply.above s w) (s.above w vm) =
      s.machine ks w (Machine.ofReply konts reply vm) := by
  cases reply <;> rfl

/-- Going on as an action replies. -/
theorem reply_alike {a : Action Reply} (konts : List Kont) (h : s.Replies vm a) :
    s.StepsAlike ks
      (Machine.continueWith a (s.above .inline vm) (s.waits ks .inline konts)
        (Machine.ofReply (s.waits ks .inline konts)))
      (Machine.continueWith a (s.above .nested vm) (s.waits ks .nested konts)
        (Machine.ofReply (s.waits ks .nested konts))) := by
  rcases h with hover | ⟨e, vm', hrun⟩ | ⟨reply, vm', hrun⟩
  · exact .inl (continueWith_overflows hover)
  · exact .inr (continueWith_error (hrun .inline) (hrun .nested))
  · right
    rw [Machine.continueWith_ok (hrun .inline), Machine.continueWith_ok (hrun .nested),
      ofReply_above, ofReply_above]
    exact .next _

end CallSite

/-! ## What the caller needs -/

namespace Context.Balanced

variable {c₀ c : Context} {ks : List Kont} {floor base : Nat}

/-- A loop has a running frame. -/
theorem running (h : c₀.Balanced (.loop floor base :: ks) c) :
    c.HasOperands 0 ∧ floor < c.frames.size := by
  obtain ⟨d, inner, hw, -, rfl, rfl⟩ := h.of_loop
  obtain ⟨init, f, low, high, rfl, hs, hlow⟩ := hw.split
  have hframes := hw.frames_eq
  refine ⟨⟨_, f, hframes, hw.height f (by simp)⟩, ?_⟩
  rw [hframes, Array.size_push, Array.size_append]
  omega

/-- Every loop that waits is counted. -/
theorem loops_pos (h : c₀.Balanced ks c) (hmem : Kont.loop floor base ∈ ks) : 0 < c.loops := by
  induction h with
  | done => cases hmem
  | guard _ ih => exact ih (by simpa using hmem)
  | attempt _ ih => exact ih (by simpa using hmem)
  | fill _ ih => exact ih (by simpa using hmem)
  | operands _ _ ih => exact ih (by simpa using hmem)
  | loop hw _ _ =>
    rw [hw.rest]
    exact Nat.succ_pos _

end Context.Balanced

namespace CallSite

variable {s : CallSite} {ks konts : List Kont} {vm : Vm} {c₀ : Context} {floor base : Nat}

/-- The loop of a nested call. -/
theorem own_mem_waits :
    Kont.loop s.frames.size (s.low .nested).size ∈ s.waits ks .nested konts := by
  simp [waits, rest]

/-- The innermost loop is one of the callee. -/
theorem le_floor {ks' : List Kont} (h : s.waits ks .nested konts = .loop floor base :: ks') :
    s.frames.size ≤ floor := by
  cases konts with
  | nil =>
    cases h
    exact Nat.le_refl _
  | cons k konts =>
    cases k with
    | loop f b =>
      cases h
      exact Nat.le_add_right _ _
    | _ => cases h

/-- The running frame of a loop is one of the callee. -/
theorem running_operands {ks' : List Kont}
    (hb : c₀.Balanced (s.waits ks .nested konts) (s.above .nested vm).context)
    (hk : s.waits ks .nested konts = .loop floor base :: ks') : vm.context.HasOperands 0 := by
  have hle := le_floor hk
  rw [hk] at hb
  obtain ⟨hops, hlt⟩ := hb.running
  have hlt : floor < (s.above .nested vm).frames.size := hlt
  exact hasOperands_of_above hops (by omega)

/-- An instruction of the callee that waits has its operands. -/
theorem waiting_operands {n : Nat}
    (hb : c₀.Balanced (s.waits ks .nested (.operands n :: konts)) (s.above .nested vm).context) :
    vm.context.HasOperands n := by
  have hcons : s.waits ks .nested (.operands n :: konts) =
      .operands n :: s.waits ks .nested konts := rfl
  rw [hcons] at hb
  generalize hk : s.waits ks .nested konts = ks' at hb
  cases hb with
  | operands hn hb =>
    have hle := le_floor hk
    obtain ⟨-, hlt⟩ := hb.running
    have hlt : _ < (s.above .nested vm).frames.size := hlt
    exact hasOperands_of_above hn (by omega)

end CallSite

/-! ## Running -/

/-- The next instruction begins with a collection. -/
def Vm.TickCollects (vm : Vm) : Prop :=
  (vm.ticks + 1) % max vm.config.gcCheckInterval 1 = 0 ∧ vm.heap.shouldCollect = true

theorem Vm.tick_run {vm : Vm} (h : ¬ vm.TickCollects) :
    tick vm = .ok () { vm with ticks := vm.ticks + 1 } := by
  have hcond : ((vm.ticks + 1) % max vm.config.gcCheckInterval 1 == 0 &&
      vm.heap.shouldCollect) = false := by
    rw [Bool.eq_false_iff]
    intro hc
    rw [Bool.and_eq_true, beq_iff_eq] at hc
    exact h hc
  unfold tick
  rw [bind_run]
  show (ite (((vm.ticks + 1) % max vm.config.gcCheckInterval 1 == 0 &&
    vm.heap.shouldCollect) = true) _ _ : Action Unit) _ = _
  rw [hcond]
  rfl

/-- Hands the value of a frame that was left to its caller in the loop; if there is none, the loop
leaves. -/
def Vm.handOver (floor : Nat) (v : Ref) : Action Flow := do
  if (← get).frames.size ≤ floor then
    modify fun vm => { vm with loops := vm.loops - 1 }
    return .leave v
  else
    push v
    return .next

theorem Vm.handOver_run (floor : Nat) (v : Ref) (vm : Vm) :
    handOver floor v vm =
      if vm.frames.size ≤ floor then .ok (.leave v) { vm with loops := vm.loops - 1 }
      else .ok .next (vm.restack (vm.stack.push v)) := by
  unfold handOver
  rw [bind_run]
  show (ite (vm.frames.size ≤ floor) _ _ : Action Flow) vm = _
  split <;> rfl

namespace CallSite

variable {s : CallSite} {vm : Vm}

/-- How an instruction of the callee ends in a loop; the loop may begin with other heights in each
of the ways. -/
theorem stepLoop_run (hops : vm.context.HasOperands 0) (htick : ¬ vm.TickCollects)
    (floor : Way → Nat) :
    Overflows (Vm.stepLoop (floor .nested) (s.above .nested vm)) ∨
    (∃ e vm', ∀ w, Vm.stepLoop (floor w) (s.above w vm) = .error e (s.above w vm')) ∨
    (∃ flow vm', (∀ v, flow ≠ .leave v) ∧
      ∀ w, Vm.stepLoop (floor w) (s.above w vm) = .ok flow (s.above w vm')) ∨
    ∃ v vm', ∀ w, Vm.stepLoop (floor w) (s.above w vm) =
      Vm.handOver (floor w) v (s.above w vm') := by
  let ticked : Vm := { vm with ticks := vm.ticks + 1 }
  have hstep : ∀ w, Vm.stepLoop (floor w) (s.above w vm) =
      Vm.performIn (floor w) (s.above w ticked) := by
    intro w
    have htick : ¬ (s.above w vm).TickCollects := htick
    unfold Vm.stepLoop
    rw [bind_ok (Vm.tick_run htick)]
    rfl
  have hticked : ticked.context.HasOperands 0 := hops
  simp only [hstep]
  rcases Agrees.perform (s := s) ticked hticked with ⟨n, vm', hover⟩ | ⟨out, hout, hrun⟩
  · exact .inl ⟨n, vm', bind_error hover⟩
  · cases out with
    | error e vm' => exact .inr (.inl ⟨e, vm', fun w => bind_error (hrun w)⟩)
    | ok flow vm' =>
      cases flow with
      | next => exact .inr (.inr (.inl ⟨.next, vm', nofun, fun w => bind_ok (hrun w)⟩))
      | call callee args n =>
        exact .inr (.inr (.inl ⟨.call callee args n, vm', nofun, fun w => bind_ok (hrun w)⟩))
      | wait request n =>
        exact .inr (.inr (.inl ⟨.wait request n, vm', nofun, fun w => bind_ok (hrun w)⟩))
      | leave v =>
        obtain ⟨outer, f, hf, -⟩ := hout
        have hreturn : ∀ w, Vm.performIn (floor w) (s.above w ticked) =
            (Vm.leaveFrame >>= fun _ => Vm.handOver (floor w) v) (s.above w vm') :=
          fun w => bind_ok (hrun w)
        simp only [hreturn]
        rcases leaveFrame_agrees (s := s) (show vm'.frames = outer.push f from hf) with
          ⟨n, vm'', hover⟩ | ⟨out', hout', hrun'⟩
        · exact .inl ⟨n, vm'', bind_error hover⟩
        · cases out' with
          | error e vm'' => exact .inr (.inl ⟨e, vm'', fun w => bind_error (hrun' w)⟩)
          | ok _ vm'' => exact .inr (.inr (.inr ⟨v, vm'', fun w => bind_ok (hrun' w)⟩))

/-! ## Failing -/

variable {ks konts : List Kont} {c₀ : Context} {floor base : Nat}

theorem cut_above (w : Way) (hloops : 0 < vm.loops) :
    (s.above w vm).cut (s.frames.size + floor) ((s.low w).size + base) =
      s.above w (vm.cut floor base) := by
  have hcount : vm.loops + w.loops - 1 = vm.loops - 1 + w.loops := by omega
  show { vm with
    frames := (s.frames ++ vm.frames.map (s.lift w)).shrink (s.frames.size + floor)
    stack := (s.low w ++ vm.stack).shrink ((s.low w).size + base)
    loops := vm.loops + w.loops - 1 } = _
  rw [shrink_append, shrink_append, hcount]
  have hshrink : (vm.frames.map (s.lift w)).shrink floor =
      (vm.frames.shrink floor).map (s.lift w) := by
    apply Array.ext'
    simp
  rw [hshrink]
  rfl

/-- A loop of the callee ends with a failure. -/
theorem unwind_alike (e : Error)
    (hb : c₀.Balanced (s.waits ks .nested (.loop floor base :: konts))
      (s.above .nested vm).context) :
    s.StepsAlike ks
      (Machine.stepRaising e (s.above .inline vm) (s.waits ks .inline (.loop floor base :: konts)))
      (Machine.stepRaising e (s.above .nested vm)
        (s.waits ks .nested (.loop floor base :: konts))) := by
  -- the loop of the call is one more than that of the callee
  have hloops : 0 < vm.loops := by
    obtain ⟨d, inner, hw, hd, -, -⟩ := Context.Balanced.of_loop hb
    have hpos := hd.loops_pos own_mem_waits
    have hcount : (s.above .nested vm).loops = d.loops + 1 := congrArg Context.loops hw.rest
    have : vm.loops + 1 = d.loops + 1 := hcount
    omega
  have hunwind : s.AgreesOn vm (Machine.announce e (s.frames.size + floor)) fun _ vm' =>
      0 < vm'.loops := (AgreesOn.quiet _).imp fun _ vm' hlay => by rw [hlay.2.2]; exact hloops
  have hstep : ∀ w, Machine.stepRaising e (s.above w vm)
      (s.waits ks w (.loop floor base :: konts)) =
        Machine.continueWith
          (Machine.unwind e (s.frames.size + floor) ((s.low w).size + base)) (s.above w vm)
          (s.waits ks w konts) fun v vm => ⟨vm, s.waits ks w konts, .raising (.panic v)⟩ :=
    fun _ => rfl
  rw [hstep, hstep]
  rcases hunwind with ⟨n, vm', hover⟩ | ⟨out, hout, hrun⟩
  · refine .inl (continueWith_overflows ⟨n, vm', ?_⟩)
    rw [Machine.unwind_run, hover]
  · right
    cases out with
    | error stop vm' =>
      have hfails : ∀ w, Machine.unwind e (s.frames.size + floor) ((s.low w).size + base)
          (s.above w vm) = .error stop (s.above w vm') := by
        intro w
        rw [Machine.unwind_run, hrun w]
        rfl
      exact continueWith_error (hfails .inline) (hfails .nested)
    | ok v vm' =>
      have hok : ∀ w, Machine.unwind e (s.frames.size + floor) ((s.low w).size + base)
          (s.above w vm) = .ok v (s.above w (vm'.cut floor base)) := by
        intro w
        rw [Machine.unwind_run, hrun w, ← cut_above w hout]
        rfl
      rw [Machine.continueWith_ok (hok .inline), Machine.continueWith_ok (hok .nested)]
      exact .next ⟨vm'.cut floor base, konts, .raising (.panic v)⟩

theorem raising_alike (e : Error) {k : Kont}
    (hb : c₀.Balanced (s.waits ks .nested (k :: konts)) (s.above .nested vm).context) :
    s.StepsAlike ks
      (Machine.stepRaising e (s.above .inline vm) (s.waits ks .inline (k :: konts)))
      (Machine.stepRaising e (s.above .nested vm) (s.waits ks .nested (k :: konts))) := by
  cases k with
  | loop floor base => exact unwind_alike e hb
  | operands n => exact .inr (.next ⟨vm, konts, .raising e⟩)
  | fill obj => exact .inr (.next ⟨{ vm with temps := vm.temps.tail }, konts, .raising e⟩)
  | attempt =>
    exact continueWith_alike (f := fun w r vm => ⟨vm, s.waits ks w konts, .returning r⟩)
      (AgreesOn.quiet _) fun r vm' _ => ⟨⟨vm', konts, .returning r⟩, fun _ => rfl⟩
  | guard =>
    exact continueWith_alike (f := fun w v vm => ⟨vm, s.waits ks w konts, .raising (.panic v)⟩)
      (AgreesOn.quiet _) fun v vm' _ => ⟨⟨vm', konts, .raising (.panic v)⟩, fun _ => rfl⟩

/-! ## Returning -/

theorem returning_alike (v : Ref) {outer : List Kont} (hks : ks = .loop floor base :: outer)
    (hb : c₀.Balanced (s.waits ks .nested konts) (s.above .nested vm).context) :
    s.StepsAlike ks
      (Machine.stepReturning v (s.above .inline vm) (s.waits ks .inline konts))
      (Machine.stepReturning v (s.above .nested vm) (s.waits ks .nested konts)) := by
  cases konts with
  | nil =>
    subst hks
    exact .inr (.fatal _)
  | cons k konts =>
    cases k with
    | loop floor base => exact .inr (.fatal _)
    | operands n =>
      exact continueWith_alike (f := fun w _ vm => ⟨vm, s.waits ks w konts, .running⟩)
        (Agrees.replace (Nat.le_refl n) v vm (waiting_operands hb))
        fun _ vm' _ => ⟨⟨vm', konts, .running⟩, fun _ => rfl⟩
    | fill obj => exact .inr (.next ⟨{ vm with temps := vm.temps.tail }, konts, .returning obj⟩)
    | attempt =>
      exact continueWith_alike (f := fun w r vm => ⟨vm, s.waits ks w konts, .returning r⟩)
        (AgreesOn.quiet _) fun r vm' _ => ⟨⟨vm', konts, .returning r⟩, fun _ => rfl⟩
    | guard => exact .inr (.next ⟨vm, konts, .returning v⟩)

/-! ## Steps -/

section Running

variable {floors bases : Way → Nat} {tails : Way → List Kont}

/-- An instruction of the callee does the same in both ways, but for a frame that returns. -/
theorem running_alike (hwaits : ∀ w, s.waits ks w konts = .loop (floors w) (bases w) :: tails w)
    (hops : vm.context.HasOperands 0) (htick : ¬ vm.TickCollects) :
    s.StepsAlike ks
      (Machine.stepRunning (s.above .inline vm) (s.waits ks .inline konts))
      (Machine.stepRunning (s.above .nested vm) (s.waits ks .nested konts)) ∨
    ∃ v vm', ∀ w, Vm.stepLoop (floors w) (s.above w vm) =
      Vm.handOver (floors w) v (s.above w vm') := by
  have hstep : ∀ w, ∃ f, Machine.stepRunning (s.above w vm) (s.waits ks w konts) =
      Machine.continueWith (Vm.stepLoop (floors w)) (s.above w vm) (s.waits ks w konts) f := by
    intro w
    rw [hwaits]
    exact ⟨_, rfl⟩
  obtain ⟨f, hf⟩ := hstep .inline
  obtain ⟨g, hg⟩ := hstep .nested
  rcases stepLoop_run (s := s) hops htick floors with
    hover | ⟨e, vm', hrun⟩ | ⟨flow, vm', hflow, hrun⟩ | hleave
  · left
    left
    rw [hg]
    exact continueWith_overflows hover
  · left
    right
    rw [hf, hg]
    exact continueWith_error (hrun .inline) (hrun .nested)
  · left
    right
    have hnext : ∀ w, Machine.stepRunning (s.above w vm) (s.waits ks w konts) =
        .next (match flow with
          | .next => s.machine ks w ⟨vm', konts, .running⟩
          | .leave v => ⟨s.above w vm', tails w, .returning v⟩
          | .call callee args n => s.machine ks w ⟨vm', .operands n :: konts, .calling callee args⟩
          | .wait request n => s.machine ks w ⟨vm', .operands n :: konts, .waiting request⟩) := by
      intro w
      have hcons : ∀ k, s.waits ks w (.operands k :: konts) =
          .operands k :: .loop (floors w) (bases w) :: tails w := by
        intro k
        rw [← hwaits]
        rfl
      rw [hwaits]
      dsimp only [Machine.stepRunning]
      rw [Machine.continueWith_ok (hrun w)]
      cases flow <;> simp only [machine, hwaits, hcons]
    rw [hnext, hnext]
    cases flow with
    | next => exact .next _
    | leave v => exact absurd rfl (hflow v)
    | call callee args n => exact .next _
    | wait request n => exact .next _
  · exact .inr hleave

/-- A frame returns to another one of the callee, which gets the value. -/
theorem handOver_alike (hwaits : ∀ w, s.waits ks w konts = .loop (floors w) (bases w) :: tails w)
    {v : Ref} {vm' : Vm} (hrun : ∀ w, Vm.stepLoop (floors w) (s.above w vm) =
      Vm.handOver (floors w) v (s.above w vm'))
    (hmore : ∀ w, ¬ (s.above w vm').frames.size ≤ floors w) :
    s.StepsAlike ks
      (Machine.stepRunning (s.above .inline vm) (s.waits ks .inline konts))
      (Machine.stepRunning (s.above .nested vm) (s.waits ks .nested konts)) := by
  right
  have hnext : ∀ w, Machine.stepRunning (s.above w vm) (s.waits ks w konts) =
      .next (s.machine ks w ⟨vm'.restack (vm'.stack.push v), konts, .running⟩) := by
    intro w
    have hpush : (s.above w vm').restack ((s.above w vm').stack.push v) =
        s.above w (vm'.restack (vm'.stack.push v)) := by
      show (s.above w vm').restack ((s.low w ++ vm'.stack).push v) = _
      rw [← Array.append_push]
      rfl
    have hflow := hrun w
    rw [Vm.handOver_run, if_neg (hmore w), hpush] at hflow
    rw [machine, hwaits]
    dsimp only [Machine.stepRunning]
    rw [Machine.continueWith_ok hflow]
  rw [hnext, hnext]
  exact .next _

end Running

/-- The loop that a call runs in leaves with what it was entered from. -/
theorem left_context {ks' : List Kont}
    (hb : c₀.Balanced (.loop floor base :: ks') (s.above .nested vm).context) {v : Ref} {u : Vm}
    (hrun : Vm.stepLoop floor (s.above .nested vm) = .ok (.leave v) u) :
    c₀.Balanced ks' u.context ∧ u.stack.size = base := by
  obtain ⟨d, inner, hw, hd, rfl, rfl⟩ := hb.of_loop
  obtain ⟨init, f, low, high, rfl, hs, hlow⟩ := hw.split
  obtain ⟨hends, -⟩ := Vm.stepLoop_ends hw hs hlow
  rw [hrun] at hends
  have hctx : u.context = d := hends
  exact ⟨hctx ▸ hd, congrArg (fun c : Context => c.stack.size) hctx⟩

/-- An instruction in a loop of the callee. -/
theorem loop_alike
    (hb : c₀.Balanced (s.waits ks .nested (.loop floor base :: konts)) (s.above .nested vm).context)
    (htick : ¬ vm.TickCollects) :
    s.StepsAlike ks
      (Machine.stepRunning (s.above .inline vm) (s.waits ks .inline (.loop floor base :: konts)))
      (Machine.stepRunning (s.above .nested vm)
        (s.waits ks .nested (.loop floor base :: konts))) := by
  have hwaits : ∀ w, s.waits ks w (.loop floor base :: konts) =
      .loop (s.frames.size + floor) ((s.low w).size + base) :: s.waits ks w konts := fun _ => rfl
  rcases running_alike hwaits (running_operands hb (hwaits .nested)) htick with
    hsame | ⟨v, vm', hrun⟩
  · exact hsame
  · by_cases hlast : vm'.frames.size ≤ floor
    · -- the loop of the callee leaves
      right
      have hleave : ∀ w, Vm.stepLoop (s.frames.size + floor) (s.above w vm) =
          .ok (.leave v) { s.above w vm' with loops := vm'.loops + w.loops - 1 } := by
        intro w
        rw [hrun w, Vm.handOver_run, above_size, if_pos (by omega)]
        rfl
      have hloops : 0 < vm'.loops + 1 - 1 := by
        obtain ⟨hd, -⟩ := left_context hb (hleave .nested)
        exact hd.loops_pos own_mem_waits
      have hnext : ∀ w, Machine.stepRunning (s.above w vm)
          (s.waits ks w (.loop floor base :: konts)) =
            .next (s.machine ks w ⟨{ vm' with loops := vm'.loops - 1 }, konts, .returning v⟩) := by
        intro w
        have hcount : vm'.loops + w.loops - 1 = vm'.loops - 1 + w.loops := by omega
        rw [hwaits]
        dsimp only [Machine.stepRunning]
        rw [Machine.continueWith_ok (hleave w), hcount]
        rfl
      rw [hnext, hnext]
      exact .next _
    · refine handOver_alike hwaits hrun fun w => ?_
      rw [above_size]
      omega

end CallSite
end ObjectMachine
