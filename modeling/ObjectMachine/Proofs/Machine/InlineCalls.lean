import ObjectMachine.Proofs.Machine.CallEnds

/-!
# ObjectMachine.Proofs.Machine.InlineCalls

The two ways to call a bytecode method come to the same.

* `CallSite.GoesAlike`, `CallSite.step_alike` — both ways take the same step, or the call is over in
  both.
* `CallSite.Abreast` — the two ways at the same point; `inline_ends` and `nested_ends` follow them
  to the end.
* `Vm.Inlines`, `Vm.Nests` — a call that is about to push a frame in the running loop, and one that
  is about to begin a loop.
* `Vm.AtCall` — a loop that is about to call a bytecode method; `begin_alike` is the first step.
* `inline_call_agrees` — from the same point, a call that pushes a frame in the loop of its caller
  and a call that runs in a loop of its own have the same end, or none of them has an end.
-/

namespace ObjectMachine

open ObjectMachine.Action

/-! ## Steps -/

/-- The next step collects nothing, and neither frames nor loops have run out. -/
structure Machine.Calm (m : Machine) : Prop where
  call : ¬ m.Collects
  tick : m.mode = .running → ¬ m.vm.TickCollects
  room : ∀ n, m.mode ≠ .raising (.stackOverflow n)

/-- The outcomes are the same unless frames or loops run out, or the call is over in both ways. -/
def CallSite.GoesAlike (s : CallSite) (floor base : Nat) (outer : List Kont) (o o' : Outcome) :
    Prop :=
  s.StepsAlike (.loop floor base :: outer) o o' ∨ s.EndsAlike floor base outer o o'

/-- What differs between the two ways. -/
def Way.pick {α : Type} (w : Way) (inline nested : α) : α :=
  match w with
  | .inline => inline
  | .nested => nested

namespace CallSite

variable {s : CallSite} {konts outer : List Kont} {vm : Vm} {c₀ : Context} {floor base : Nat}

/-- An instruction of the callee's first frame, or of a frame that was pushed in the same loop. -/
theorem first_loop_alike (hfloor : floor < s.frames.size)
    (hb : c₀.Balanced (s.waits (.loop floor base :: outer) .nested []) (s.above .nested vm).context)
    (htick : ¬ vm.TickCollects) :
    s.GoesAlike floor base outer
      (Machine.stepRunning (s.above .inline vm) (s.waits (.loop floor base :: outer) .inline []))
      (Machine.stepRunning (s.above .nested vm)
        (s.waits (.loop floor base :: outer) .nested [])) := by
  let ks : List Kont := .loop floor base :: outer
  let floors (w : Way) : Nat := w.pick floor s.frames.size
  let bases (w : Way) : Nat := w.pick base (s.low .nested).size
  let tails (w : Way) : List Kont := w.pick outer (.operands s.operands.size :: ks)
  have hwaits : ∀ w, s.waits ks w [] = .loop (floors w) (bases w) :: tails w := by
    intro w
    cases w <;> rfl
  rcases running_alike hwaits (running_operands hb (hwaits .nested)) htick with
    hsame | ⟨v, vm', hrun⟩
  · exact .inl hsame
  · by_cases hlast : vm'.frames = #[]
    · exact .inr (return_ends hfloor hb hlast (hrun .inline) (hrun .nested))
    · have hpos : 0 < vm'.frames.size := Array.size_pos_iff.mpr hlast
      refine .inl (handOver_alike hwaits hrun fun w => ?_)
      rw [above_size]
      cases w with
      | inline =>
        show ¬ s.frames.size + vm'.frames.size ≤ floor
        omega
      | nested =>
        show ¬ s.frames.size + vm'.frames.size ≤ s.frames.size
        omega

/-- Both ways to call take the same step, or the call is over in both. -/
theorem step_alike (hfloor : floor < s.frames.size) (hbase : base ≤ s.below.size) {m : Machine}
    (hb : (s.machine (.loop floor base :: outer) .nested m).Balanced c₀)
    (hm : (s.machine (.loop floor base :: outer) .nested m).Calm) :
    s.GoesAlike floor base outer (s.machine (.loop floor base :: outer) .inline m).step
      (s.machine (.loop floor base :: outer) .nested m).step := by
  obtain ⟨vm, konts, mode⟩ := m
  cases mode with
  | running =>
    have htick : ¬ vm.TickCollects := hm.tick rfl
    obtain ⟨f, b, ks', hk⟩ := hb.running rfl
    cases konts with
    | nil => exact first_loop_alike hfloor hb.konts htick
    | cons k konts =>
      cases k with
      | loop floor base => exact .inl (loop_alike hb.konts htick)
      | _ => cases hk
  | calling callee args =>
    have hne : ¬ vm.heap.IsCollect callee := fun h => hm.call ⟨callee, args, rfl, h⟩
    exact .inl (reply_alike konts (Replies.call hne args))
  | constructing cls args => exact .inl (reply_alike konts (Replies.settled _))
  | returning v => exact .inl (returning_alike v rfl hb.konts)
  | raising e =>
    cases konts with
    | nil => exact .inr (raise_ends e (Nat.le_of_lt hfloor) hbase)
    | cons k konts => exact .inl (raising_alike e hb.konts)
  | waiting request => exact .inl (.inr (.blocked ⟨vm, konts, .waiting request⟩ request))

theorem resume_alike {ks : List Kont} (m : Machine) (a : Machine.Answer) :
    s.StepsAlike ks ((s.machine ks .inline m).resume a) ((s.machine ks .nested m).resume a) :=
  continueWith_alike (f := fun w r vm => ⟨vm, s.waits ks w m.konts, .returning r⟩)
    (AgreesOn.quiet _) fun r vm' _ => ⟨⟨vm', m.konts, .returning r⟩, fun _ => rfl⟩

end CallSite

/-! ## Whole calls -/

/-- Until the call is over, while the exchanges take place, nothing is collected and neither frames
nor loops run out. -/
def Outcome.CalmAlong (ended : Machine → Prop) (o : Outcome) (x : List Exchange) : Prop :=
  ∀ y m, y <+: x → o.Visits ended y (.next m) → ¬ ended m → m.Calm

namespace Outcome.CalmAlong

variable {ended : Machine → Prop} {x : List Exchange} {m : Machine}

theorem here (h : (Outcome.next m).CalmAlong ended x) (hm : ¬ ended m) : m.Calm :=
  h [] m List.nil_prefix (.here _) hm

theorem step (h : (Outcome.next m).CalmAlong ended x) (hm : ¬ ended m) :
    m.step.CalmAlong ended x :=
  fun y m' hy hvisits => h y m' hy (.step hm hvisits)

theorem answer {request : Request} {a : Machine.Answer}
    (h : (Outcome.blocked m request).CalmAlong ended ((request, a) :: x)) :
    (m.resume a).CalmAlong ended x :=
  fun _ m' hy hvisits => h _ m' (List.cons_prefix_cons.mpr ⟨rfl, hy⟩) (.answer hvisits)

end Outcome.CalmAlong

namespace CallSite

variable {s : CallSite} {outer : List Kont} {c₀ : Context} {floor base : Nat}
  {o o' e : Outcome} {x : List Exchange}

/-- While nothing runs out, a step that is the same unless something runs out is the same. -/
theorem StepsAlike.alike {ks : List Kont} (h : s.StepsAlike ks o o')
    (hcalm : o'.CalmAlong (s.Over ks) x) : s.Alike ks o o' := by
  rcases h with ⟨m, n, rfl, hmode, hlength⟩ | h
  · have hnot : ¬ s.Over ks m := by
      rintro (hlt | ⟨-, hrunning, -⟩)
      · omega
      · rw [hmode] at hrunning
        cases hrunning
    exact absurd hmode ((hcalm.here hnot).room n)
  · exact h

/-- What the two ways have come to: the same point of the call, or its end. -/
structure Abreast (s : CallSite) (floor base : Nat) (outer : List Kont) (c₀ : Context)
    (x : List Exchange) (o o' : Outcome) : Prop where
  balanced : o'.Balanced c₀
  calm : o'.CalmAlong (s.Over (.loop floor base :: outer)) x
  alike : s.Alike (.loop floor base :: outer) o o' ∨ s.EndsAlike floor base outer o o'

theorem GoesAlike.abreast (h : s.GoesAlike floor base outer o o') (hb : o'.Balanced c₀)
    (hcalm : o'.CalmAlong (s.Over (.loop floor base :: outer)) x) :
    s.Abreast floor base outer c₀ x o o' := by
  rcases h with hsteps | hends
  · exact ⟨hb, hcalm, .inl (hsteps.alike hcalm)⟩
  · exact ⟨hb, hcalm, .inr hends⟩

namespace Abreast

theorem step (hfloor : floor < s.frames.size) (hbase : base ≤ s.below.size) {m : Machine}
    (h : s.Abreast floor base outer c₀ x
      (.next (s.machine (.loop floor base :: outer) .inline m))
      (.next (s.machine (.loop floor base :: outer) .nested m))) :
    s.Abreast floor base outer c₀ x (s.machine (.loop floor base :: outer) .inline m).step
      (s.machine (.loop floor base :: outer) .nested m).step := by
  have hgoes := step_alike hfloor hbase h.balanced (h.calm.here (nested_not_over m))
  exact hgoes.abreast (Machine.Balanced.step h.balanced) (h.calm.step (nested_not_over m))

theorem resume {m : Machine} {request : Request} {a : Machine.Answer}
    (h : s.Abreast floor base outer c₀ ((request, a) :: x)
      (.blocked (s.machine (.loop floor base :: outer) .inline m) request)
      (.blocked (s.machine (.loop floor base :: outer) .nested m) request)) :
    s.Abreast floor base outer c₀ x ((s.machine (.loop floor base :: outer) .inline m).resume a)
      ((s.machine (.loop floor base :: outer) .nested m).resume a) :=
  ⟨Machine.Balanced.resume h.balanced a, h.calm.answer,
    .inl ((resume_alike m a).alike h.calm.answer)⟩

/-- A nested call that ends has an inline one that ends the same. -/
theorem inline_ends (hfloor : floor < s.frames.size) (hbase : base ≤ s.below.size)
    (h : s.Abreast floor base outer c₀ x o o')
    (hend : o'.Ends (s.Over (.loop floor base :: outer)) x e) :
    ∃ d, o.Ends (s.Over (.loop floor base :: outer)) x d ∧ s.SameEnd floor base outer d e := by
  obtain ⟨hvisits, hfin⟩ := hend
  -- the induction is on the nested call
  induction hvisits generalizing o with
  | here o' =>
    obtain ⟨hb, hcalm, halike | hends⟩ := h
    · cases halike with
      | next m => exact absurd hfin (nested_not_over m)
      | blocked m request => exact hfin.elim
      | fatal f => exact ⟨_, .here trivial, .fatal f⟩
      | crashed => exact ⟨_, .here trivial, .crashed⟩
    · exact hends.inline_ends (.here hfin)
  | step hnot hvisits ih =>
    obtain ⟨hb, hcalm, halike | hends⟩ := h
    · cases halike with
      | next m =>
        obtain ⟨d, hd, hsame⟩ := ih (step hfloor hbase ⟨hb, hcalm, .inl (.next m)⟩) hfin
        exact ⟨d, hd.step (inline_not_over hb), hsame⟩
    · exact hends.inline_ends ⟨.step hnot hvisits, hfin⟩
  | answer hvisits ih =>
    obtain ⟨hb, hcalm, halike | hends⟩ := h
    · cases halike with
      | blocked m =>
        obtain ⟨d, hd, hsame⟩ := ih (resume ⟨hb, hcalm, .inl (.blocked m _)⟩) hfin
        exact ⟨d, hd.answer, hsame⟩
    · exact hends.inline_ends ⟨.answer hvisits, hfin⟩

/-- An inline call that ends has a nested one that ends the same. -/
theorem nested_ends (hfloor : floor < s.frames.size) (hbase : base ≤ s.below.size)
    (h : s.Abreast floor base outer c₀ x o o')
    (hend : o.Ends (s.Over (.loop floor base :: outer)) x e) :
    ∃ d, o'.Ends (s.Over (.loop floor base :: outer)) x d ∧ s.SameEnd floor base outer e d := by
  obtain ⟨hvisits, hfin⟩ := hend
  -- the induction is on the inline call
  induction hvisits generalizing o' with
  | here o =>
    obtain ⟨hb, hcalm, halike | hends⟩ := h
    · cases halike with
      | next m => exact absurd hfin (inline_not_over hb)
      | blocked m request => exact hfin.elim
      | fatal f => exact ⟨_, .here trivial, .fatal f⟩
      | crashed => exact ⟨_, .here trivial, .crashed⟩
    · exact hends.nested_ends (.here hfin)
  | step hnot hvisits ih =>
    obtain ⟨hb, hcalm, halike | hends⟩ := h
    · cases halike with
      | next m =>
        obtain ⟨d, hd, hsame⟩ := ih (step hfloor hbase ⟨hb, hcalm, .inl (.next m)⟩) hfin
        exact ⟨d, hd.step (nested_not_over m), hsame⟩
    · exact hends.nested_ends ⟨.step hnot hvisits, hfin⟩
  | answer hvisits ih =>
    obtain ⟨hb, hcalm, halike | hends⟩ := h
    · cases halike with
      | blocked m =>
        obtain ⟨d, hd, hsame⟩ := ih (resume ⟨hb, hcalm, .inl (.blocked m _)⟩) hfin
        exact ⟨d, hd.answer, hsame⟩
    · exact hends.nested_ends ⟨.answer hvisits, hfin⟩

end Abreast
end CallSite

/-! ## The beginning of a call -/

/-- An action at the place of the running frame keeps it in its loop. -/
theorem Isolated.within {α : Type} {a : Action α} {j : Nat}
    (ha : ∀ p, Isolated p 0 a fun _ => p.Holds j) {d : Context} {inner : List ActiveFrame}
    {vm vm' : Vm} {x : α} (hw : d.Within inner vm.context) (hrun : a vm = .ok x vm') :
    (∃ inner', d.Within inner' vm'.context) ∧ vm'.context.HasOperands j := by
  obtain ⟨init, f, low, high, rfl, hs, hlow⟩ := hw.split
  obtain ⟨hplace, honto⟩ := hw.place hs
  obtain ⟨out, hout, hplaced⟩ := ha _ (vm.restack high) hplace
  have hplaced := hplaced low hlow
  rw [honto, hrun] at hplaced
  cases out with
  | error e own => cases hplaced
  | ok x own =>
    cases hplaced
    obtain ⟨⟨ip, hw'⟩, hn⟩ := hout.within hw hs hlow
    exact ⟨⟨_, hw'⟩, hn⟩

/-- Going on after an action that only gives the answer of another one a shape. -/
theorem Machine.continueWith_of_map {α β : Type} {a : Action α} {b : Action β} {k : α → β}
    {vm vm' : Vm} (h : b vm = (do return k (← a) : Action β) vm') {konts : List Kont}
    {f : β → Vm → Machine} :
    continueWith b vm konts f = continueWith a vm' konts fun x => f (k x) := by
  unfold continueWith
  rw [h, bind_run]
  cases a vm' with
  | ok x u => rfl
  | error e u => cases e <;> rfl

namespace Vm

/-- The next instruction calls the bytecode method `callee` with `args`; it has looked at its
operands in the state `vm'`. The class of the method calls it as a method. -/
structure AtCall (vm : Vm) (callee : Ref) (args : List Ref) (vm' : Vm) : Prop where
  fetched : ∃ u i, tick vm = .ok () u ∧ fetch u = .ok (some i) vm' ∧ i.op? = some .call ∧
    i.arg1.toNat = args.length
  operands : peekMany (args.length + 1) vm' = .ok (callee :: args) vm'
  bytecode : isBytecode callee vm' = .ok true vm'
  slot : require .call Slots.call callee vm' = .ok .method vm'

/-- The next instruction pushes a frame for the bytecode method `callee`; it has looked at its
operands in the state `vm'`. -/
structure Inlines (vm : Vm) (callee : Ref) (args : List Ref) (vm' : Vm) : Prop where
  fetched : ∃ u i, tick vm = .ok () u ∧ fetch u = .ok (some i) vm' ∧ i.op? = some .call ∧
    i.arg1.toNat = args.length
  operands : peekMany (args.length + 1) vm' = .ok (callee :: args) vm'
  bytecode : isBytecode callee vm' = .ok true vm'

/-- A call of the object runs bytecode in a loop of its own. -/
structure Nests (vm : Vm) (callee : Ref) : Prop where
  bytecode : isBytecode callee vm = .ok true vm
  slot : require .call Slots.call callee vm = .ok .method vm

/-- The caller in a state in which the callee and `args` are on top of the operand stack. -/
def callSite (vm : Vm) (args : List Ref) : CallSite where
  frames := vm.frames
  below := vm.stack.extract 0 (vm.stack.size - (args.length + 1))
  operands := vm.stack.extract (vm.stack.size - (args.length + 1)) vm.stack.size

theorem callSite_stack (vm : Vm) (args : List Ref) :
    vm.stack = (vm.callSite args).below ++ (vm.callSite args).operands := by
  simp [callSite]

theorem callSite_operands_size {vm : Vm} {args : List Ref} (h : args.length + 1 ≤ vm.stack.size) :
    (vm.callSite args).operands.size = args.length + 1 := by
  simp only [callSite, Array.size_extract]
  omega

theorem callSite_below_size (vm : Vm) (args : List Ref) :
    (vm.callSite args).below.size = vm.stack.size - (args.length + 1) := by
  simp only [callSite, Array.size_extract]
  omega

variable {vm vm' : Vm} {callee : Ref} {args : List Ref} {floor base : Nat} {outer : List Kont}

/-- The instruction pushes a frame for the callee in place of the operands. -/
theorem Inlines.step (h : vm.Inlines callee args vm') (hn : args.length + 1 ≤ vm'.stack.size) :
    Machine.step ⟨vm, .loop floor base :: outer, .running⟩ =
      Machine.continueWith (enter callee args)
        (vm'.restack (vm'.callSite args).below) (.loop floor base :: outer)
        fun _ vm => ⟨vm, .loop floor base :: outer, .running⟩ := by
  obtain ⟨u, i, htick, hfetch, hop, harg⟩ := h.fetched
  have hdrop : drop (args.length + 1) vm' =
      .ok () (vm'.restack (vm'.callSite args).below) := by
    have := drop_run (vm'.callSite_stack args)
    rwa [callSite_operands_size hn] at this
  have hexec : execute .call i vm' =
      (do enter callee args; return .next : Action Flow)
        (vm'.restack (vm'.callSite args).below) := by
    dsimp only [execute]
    rw [harg, bind_ok h.operands]
    dsimp only
    rw [bind_ok h.bytecode, if_pos rfl, bind_ok hdrop]
  have hperform : perform u = execute .call i vm' := by
    unfold perform
    rw [bind_ok hfetch]
    dsimp only
    rw [hop]
  have hloop : stepLoop floor vm = (do enter callee args; return .next : Action Flow)
      (vm'.restack (vm'.callSite args).below) := by
    unfold stepLoop performIn
    rw [bind_ok htick, bind_run, hperform, hexec, bind_run]
    cases enter callee args (vm'.restack (vm'.callSite args).below) <;> rfl
  exact Machine.continueWith_of_map hloop

/-- Called through its class, the callee gets a loop. -/
theorem Nests.step (h : vm.Nests callee) (args : List Ref) (konts : List Kont) :
    Machine.step ⟨vm, konts, .calling callee args⟩ =
      Machine.continueWith (enterLoop callee args) vm konts
        fun p vm => ⟨vm, .loop p.1 p.2 :: konts, .running⟩ := by
  have hmethod : callMethod callee args vm = (do
      let p ← enterLoop callee args
      return .entered p.1 p.2 : Action Reply) vm := by
    have hbytecode := h.bytecode
    unfold isBytecode at hbytecode
    unfold callMethod
    rw [bind_run] at hbytecode ⊢
    cases hp : payload callee vm with
    | error e u =>
      rw [hp] at hbytecode
      cases hbytecode
    | ok p u =>
      rw [hp] at hbytecode
      cases p with
      | method m =>
        obtain ⟨name, body, receiver⟩ := m
        cases body with
        | native f => cases hbytecode
        | bytecode code module =>
          cases hbytecode
          rfl
        | closure code module bindings =>
          cases hbytecode
          rfl
      | _ => cases hbytecode
  have hcall : call callee args vm = (do
      let p ← enterLoop callee args
      return .entered p.1 p.2 : Action Reply) vm := by
    unfold call
    rw [bind_ok h.slot]
    exact hmethod
  exact Machine.continueWith_of_map hcall

namespace AtCall

theorem inlines (h : vm.AtCall callee args vm') : vm.Inlines callee args vm' :=
  ⟨h.fetched, h.operands, h.bytecode⟩

theorem nests (h : vm.AtCall callee args vm') : vm'.Nests callee :=
  ⟨h.bytecode, h.slot⟩

/-- What the caller has when it calls. -/
theorem balanced {c₀ : Context} (h : vm.AtCall callee args vm')
    (hb : c₀.Balanced (.loop floor base :: outer) vm.context) :
    c₀.Balanced (.operands (args.length + 1) :: .loop floor base :: outer) vm'.context ∧
      floor < vm'.frames.size ∧ base + (args.length + 1) ≤ vm'.stack.size := by
  obtain ⟨u, i, htick, hfetch, -, -⟩ := h.fetched
  obtain ⟨d, inner, hw, hd, rfl, rfl⟩ := hb.of_loop
  have hctx : u.context = vm.context := by
    have := Steady.context (a := tick) vm
    rw [htick] at this
    exact this
  rw [← hctx] at hw
  obtain ⟨⟨inner₁, hw₁⟩, -⟩ := Isolated.within (fun _ => Isolated.fetch) hw hfetch
  obtain ⟨-, hn⟩ := Isolated.within (fun _ => Isolated.peekMany _) hw₁ h.operands
  have hn : vm'.context.HasOperands (args.length + 1) := by simpa using hn
  have hloop : c₀.Balanced (.loop d.frames.size d.stack.size :: outer) vm'.context := .loop hw₁ hd
  refine ⟨.operands hn hloop, hloop.running.2, ?_⟩
  obtain ⟨init, f, low, high, rfl, hs, hlow⟩ := hw₁.split
  have hle : f.base + (args.length + 1) ≤ vm'.stack.size := hw₁.operands_le hn
  have := hw₁.le_base
  omega

end AtCall
end Vm

/-- The state of a callee that begins with the frame `f`. -/
def Vm.begun (f : ActiveFrame) (vm : Vm) : Vm :=
  { vm with stack := #[], frames := #[{ f with base := 0 }] }

namespace CallSite

variable {s : CallSite} {vm : Vm}

theorem above_begun (hframes : vm.frames = s.frames) (f : ActiveFrame) (w : Way) :
    s.above w (vm.begun f) =
      { vm with
        stack := s.low w
        frames := vm.frames.push { f with base := (s.low w).size }
        loops := vm.loops + w.loops } := by
  have hpush : s.frames ++ #[{ f with base := 0 }].map (s.lift w) =
      vm.frames.push { f with base := (s.low w).size } := by
    rw [hframes]
    simp [lift, ActiveFrame.based]
  show { vm with
    stack := s.low w ++ #[]
    frames := s.frames ++ #[{ f with base := 0 }].map (s.lift w)
    loops := vm.loops + w.loops } = _
  rw [hpush, Array.append_empty]

end CallSite

namespace Vm

variable {vm : Vm} {callee : Ref} {args : List Ref}

/-- The loop of a call is there once its frame is, if there is room for both. -/
theorem enterLoop_eq (callee : Ref) (args : List Ref)
    (hroom : ¬ vm.loops ≥ vm.config.maxNativeDepth) :
    enterLoop callee args vm =
      match activate callee args vm with
      | .ok f u => .ok (vm.frames.size, vm.stack.size) { u with
          frames := u.frames.push { f with base := u.stack.size }, loops := u.loops + 1 }
      | .error e u => .error e u := by
  rw [enterLoop_run, if_neg hroom, enter, bind_assoc, bind_run]
  cases activate callee args vm <;> rfl

namespace AtCall

variable {vm' : Vm} {floor base : Nat} {outer : List Kont}

/-- The callee cannot be entered in any of the two ways. -/
theorem begin_fails (h : vm.AtCall callee args vm')
    (hbase : base + (args.length + 1) ≤ vm'.stack.size)
    (hroom : ¬ vm'.loops ≥ vm'.config.maxNativeDepth) {stop : Stop} {u : Vm}
    (hrun : activate callee args vm' = .error stop u) :
    (vm'.callSite args).EndsAlike floor base outer
      (Machine.step ⟨vm, .loop floor base :: outer, .running⟩)
      (Machine.step ⟨vm', .operands (args.length + 1) :: .loop floor base :: outer,
        .calling callee args⟩) := by
  let s := vm'.callSite args
  have hblind := Blind.blind (a := activate callee args) vm' s.below
  have hctx := Steady.context (a := activate callee args) vm'
  rw [hrun] at hblind hctx
  have hinline : enter callee args (vm'.restack s.below) = .error stop (u.restack s.below) :=
    bind_error hblind
  have hnested : enterLoop callee args vm' = .error stop u := by
    rw [enterLoop_eq callee args hroom, hrun]
  rw [h.inlines.step (by omega), h.nests.step]
  unfold Machine.continueWith
  rw [hinline, hnested]
  cases stop with
  | raised e =>
    have hstack : u.stack = s.below ++ s.operands :=
      (congrArg Context.stack hctx).trans (callSite_stack vm' args)
    have hbelow : base ≤ s.below.size := by
      show base ≤ (vm'.callSite args).below.size
      rw [callSite_below_size]
      omega
    have hends : s.EndsAlike floor base outer _ _ :=
      CallSite.unwind_ends hstack (congrArg Context.frames hctx) hbelow e
    obtain ⟨d, d', hd, hd', hsame⟩ := hends
    exact ⟨d, d', hd.step CallSite.not_over_raising,
      .step (CallSite.not_over (by simp)) (hd'.step CallSite.not_over_raising), hsame⟩
  | fatal f => exact .here (.fatal f)
  | crashed => exact .here .crashed

/-- The callee begins in both ways. -/
theorem begin_enters (h : vm.AtCall callee args vm') (hn : args.length + 1 ≤ vm'.stack.size)
    (hroom : ¬ vm'.loops ≥ vm'.config.maxNativeDepth) {f : ActiveFrame} {u : Vm}
    (hrun : activate callee args vm' = .ok f u) :
    (vm'.callSite args).Alike (.loop floor base :: outer)
      (Machine.step ⟨vm, .loop floor base :: outer, .running⟩)
      (Machine.step ⟨vm', .operands (args.length + 1) :: .loop floor base :: outer,
        .calling callee args⟩) := by
  let ks : List Kont := .loop floor base :: outer
  let s := vm'.callSite args
  have hstack : vm'.stack = s.below ++ s.operands := callSite_stack vm' args
  have hcount : s.operands.size = args.length + 1 := callSite_operands_size hn
  have hblind := Blind.blind (a := activate callee args) vm' s.below
  have hctx := Steady.context (a := activate callee args) vm'
  rw [hrun] at hblind hctx
  have hustack : u.stack = s.low .nested := (congrArg Context.stack hctx).trans hstack
  have huframes : u.frames = s.frames := congrArg Context.frames hctx
  have hinline : enter callee args (vm'.restack s.below) =
      .ok () (s.above .inline (u.begun f)) := by
    unfold enter
    rw [bind_ok hblind, CallSite.above_begun huframes]
    rfl
  have hnested : enterLoop callee args vm' =
      .ok (vm'.frames.size, vm'.stack.size) (s.above .nested (u.begun f)) := by
    rw [enterLoop_eq callee args hroom, hrun, CallSite.above_begun huframes, ← hustack]
    rfl
  have hwaits : s.waits ks .nested [] =
      .loop vm'.frames.size vm'.stack.size :: .operands (args.length + 1) :: ks := by
    rw [← hcount, hstack]
    rfl
  have hmachine : s.machine ks .nested ⟨u.begun f, [], .running⟩ =
      ⟨s.above .nested (u.begun f),
        .loop vm'.frames.size vm'.stack.size :: .operands (args.length + 1) :: ks, .running⟩ :=
    congrArg (Machine.mk _ · _) hwaits
  rw [h.inlines.step hn, h.nests.step, Machine.continueWith_ok hinline,
    Machine.continueWith_ok hnested]
  have hnext : s.Alike ks _ _ := .next ⟨u.begun f, [], .running⟩
  exact hmachine ▸ hnext

/-- The two ways to call begin alike, or both fail at once. -/
theorem begin_alike (h : vm.AtCall callee args vm')
    (hbase : base + (args.length + 1) ≤ vm'.stack.size) :
    (vm'.callSite args).GoesAlike floor base outer
      (Machine.step ⟨vm, .loop floor base :: outer, .running⟩)
      (Machine.step ⟨vm', .operands (args.length + 1) :: .loop floor base :: outer,
        .calling callee args⟩) := by
  by_cases hfull : vm'.loops ≥ vm'.config.maxNativeDepth
  · left
    left
    have hover : enterLoop callee args vm' =
        .error (.raised (.stackOverflow vm'.frames.size)) vm' := by
      rw [enterLoop_run, if_pos hfull]
      rfl
    rw [h.nests.step]
    unfold Machine.continueWith
    rw [hover]
    exact ⟨_, _, rfl, rfl, Nat.le_succ _⟩
  · cases hrun : activate callee args vm' with
    | error stop u => exact .inr (h.begin_fails hbase hfull hrun)
    | ok f u => exact .inl (.inr (h.begin_enters (by omega) hfull hrun))

end AtCall
end Vm

/-- The call of a method through its class, by an instruction that waits for the value. -/
def Vm.nestedCall (vm : Vm) (callee : Ref) (args : List Ref) (ks : List Kont) : Outcome :=
  .next ⟨vm, .operands (args.length + 1) :: ks, .calling callee args⟩

/-- The two ways to call a bytecode method agree. A running loop, in any state that a run can reach,
is about to call a method; `x` are the exchanges of the call with its surroundings, and along them
nothing is collected and neither frames nor loops run out. Then the call that pushes a frame in the
running loop and the call through the class of the method, which runs in a loop of its own, both
have an end or both have none. They end in the same state with the same value for the caller; or
with the same value raised beyond the running loop, in states that differ in their traces at most;
or the whole run ends. -/
theorem inline_call_agrees (vm₀ : Vm) (entry : Entry) {vm vm' : Vm} {floor base : Nat}
    {outer : List Kont} {callee : Ref} {args : List Ref} {x : List Exchange}
    (hr : (entry.begin vm₀).Reaches (.next ⟨vm, .loop floor base :: outer, .running⟩))
    (hcall : vm.AtCall callee args vm')
    (hcalm : (vm'.nestedCall callee args (.loop floor base :: outer)).CalmAlong
      ((vm'.callSite args).Over (.loop floor base :: outer)) x) :
    (∀ e', (vm'.nestedCall callee args (.loop floor base :: outer)).Ends
        ((vm'.callSite args).Over (.loop floor base :: outer)) x e' →
      ∃ e, (Machine.step ⟨vm, .loop floor base :: outer, .running⟩).Ends
          ((vm'.callSite args).Over (.loop floor base :: outer)) x e ∧
        (vm'.callSite args).SameEnd floor base outer e e') ∧
    ∀ e, (Machine.step ⟨vm, .loop floor base :: outer, .running⟩).Ends
        ((vm'.callSite args).Over (.loop floor base :: outer)) x e →
      ∃ e', (vm'.nestedCall callee args (.loop floor base :: outer)).Ends
          ((vm'.callSite args).Over (.loop floor base :: outer)) x e' ∧
        (vm'.callSite args).SameEnd floor base outer e e' := by
  have hb : Machine.Balanced vm₀.context ⟨vm, .loop floor base :: outer, .running⟩ :=
    (entry.begin_balanced vm₀).reaches hr
  obtain ⟨hwaiting, hfloor, hheight⟩ := hcall.balanced hb.konts
  have hbase : base ≤ (vm'.callSite args).below.size := by
    rw [Vm.callSite_below_size]
    omega
  have hnot : ¬ (vm'.callSite args).Over (.loop floor base :: outer)
      ⟨vm', .operands (args.length + 1) :: .loop floor base :: outer, .calling callee args⟩ :=
    CallSite.not_over (by simp)
  have habreast := (hcall.begin_alike hheight).abreast
    (Machine.Balanced.step ⟨hwaiting, nofun⟩) (hcalm.step hnot)
  refine ⟨fun e' hend => habreast.inline_ends hfloor hbase (hend.of_next hnot), fun e hend => ?_⟩
  obtain ⟨e', hend', hsame⟩ := habreast.nested_ends hfloor hbase hend
  exact ⟨e', hend'.step hnot, hsame⟩

/-! ## Calls that can be run -/

instance (vm : Vm) : Decidable vm.TickCollects :=
  inferInstanceAs (Decidable (_ ∧ _))

/-- A test for `Calm`. -/
def Machine.calm (m : Machine) : Bool :=
  match m.mode with
  | .running => !decide m.vm.TickCollects
  | .calling callee _ =>
    match m.vm.heap.get callee with
    | .ok ⟨_, .method ⟨_, .native .collect, _⟩⟩ => false
    | _ => true
  | .raising (.stackOverflow _) => false
  | _ => true

theorem Machine.Calm.of_calm {m : Machine} (h : m.calm = true) : m.Calm := by
  refine ⟨?_, fun hmode => ?_, fun n hmode => ?_⟩
  · rintro ⟨callee, args, hmode, k, ⟨name, body, receiver⟩, hget, rfl⟩
    simp [calm, hmode, hget] at h
  · simpa [calm, hmode] using h
  · simp [calm, hmode] at h

instance (mode : Mode) : Decidable (mode = .running) :=
  match mode with
  | .running => isTrue rfl
  | .calling _ _ | .constructing _ _ | .returning _ | .raising _ | .waiting _ => isFalse nofun

instance (s : CallSite) (ks : List Kont) : DecidablePred (s.Over ks) := fun _ =>
  inferInstanceAs (Decidable (_ ∨ _ ∧ _ ∧ _))

/-- The end of a call that comes in a number of steps, all of them calm, without any request. -/
def Machine.endOfCall (ended : Machine → Prop) [DecidablePred ended] :
    Nat → Machine → Option Outcome
  | 0, _ => none
  | fuel + 1, m =>
    if ended m then some (.next m)
    else if m.calm then
      match m.step with
      | .next m => endOfCall ended fuel m
      | .blocked _ _ => none
      | e => some e
    else none

theorem Machine.endOfCall_ends {ended : Machine → Prop} [DecidablePred ended] {fuel : Nat}
    {m : Machine} {e : Outcome} (h : m.endOfCall ended fuel = some e) :
    (Outcome.next m).Ends ended [] e ∧ (Outcome.next m).CalmAlong ended [] := by
  induction fuel generalizing m with
  | zero => cases h
  | succ fuel ih =>
    unfold endOfCall at h
    by_cases hover : ended m
    · rw [if_pos hover] at h
      cases h
      refine ⟨.here hover, ?_⟩
      rintro y m' - (_ | ⟨hnot, -⟩) hnot'
      · exact absurd hover hnot'
      · exact absurd hover hnot
    by_cases hcalm : m.calm = true
    · rw [if_neg hover, if_pos hcalm] at h
      have hstep : m.step.Ends ended [] e ∧ m.step.CalmAlong ended [] := by
        cases hm : m.step with
        | next m' =>
          rw [hm] at h
          exact ih h
        | blocked m' request =>
          rw [hm] at h
          cases h
        | _ =>
          rw [hm] at h
          cases h
          exact ⟨.here trivial, fun _ _ _ hvisits => by cases hvisits⟩
      refine ⟨hstep.1.step hover, ?_⟩
      rintro y m' hy (_ | ⟨-, hvisits⟩) hnot
      · exact .of_calm hcalm
      · exact hstep.2 y m' hy hvisits hnot
    · rw [if_neg hover, if_neg hcalm] at h
      cases h

/-- A task with a method that calls another one, which pushes nil and returns it. -/
def Vm.nilCaller : Vm :=
  { heap :=
      { Heap.empty 0 {} with
        cells := #[
          { obj := some ⟨⟨0, 0, 0⟩, .cls
              { name := "Method", super := none, size := 0, slots := { call := some .method } }⟩ },
          { obj := some ⟨⟨0, 0, 0⟩, .code
              ⟨{ code := #[.simple .pushConst, .simple .call, .simple .ret] }, #[⟨0, 4, 0⟩]⟩⟩ },
          { obj := some ⟨⟨0, 0, 0⟩, .method { name := "", body := .bytecode ⟨0, 1, 0⟩ none }⟩ },
          { obj := some ⟨⟨0, 0, 0⟩, .code ⟨{ code := #[.simple .pushNil, .simple .ret] }, #[]⟩⟩ },
          { obj := some ⟨⟨0, 0, 0⟩, .method { name := "", body := .bytecode ⟨0, 3, 0⟩ none }⟩ }] }
    task := ⟨0, 0⟩
    config := {}
    registry := {}
    stack := #[nilRef 0] }

/-- The call in that task ends the same in both ways. -/
theorem inline_call_agrees_nil :
    ∃ vm vm' e e',
      ((Entry.call ⟨0, 2, 0⟩ []).begin Vm.nilCaller).Reaches (.next ⟨vm, [.loop 0 1], .running⟩) ∧
      vm.AtCall ⟨0, 4, 0⟩ [] vm' ∧
      (vm'.nestedCall ⟨0, 4, 0⟩ [] [.loop 0 1]).Ends ((vm'.callSite []).Over [.loop 0 1]) [] e' ∧
      (Machine.step ⟨vm, [.loop 0 1], .running⟩).Ends ((vm'.callSite []).Over [.loop 0 1]) [] e ∧
      (vm'.callSite []).SameEnd 0 1 [] e e' := by
  obtain ⟨vm, vm', hrun, hcall, hend⟩ : ∃ vm vm',
      Machine.run 2 ⟨Vm.nilCaller, [], .calling ⟨0, 2, 0⟩ []⟩ =
        .next ⟨vm, [.loop 0 1], .running⟩ ∧
      vm.AtCall ⟨0, 4, 0⟩ [] vm' ∧
      (Machine.endOfCall ((vm'.callSite []).Over [.loop 0 1]) 5
        ⟨vm', [.operands 1, .loop 0 1], .calling ⟨0, 4, 0⟩ []⟩).isSome = true :=
    ⟨_, _, rfl, ⟨⟨_, _, rfl, rfl, rfl, rfl⟩, rfl, rfl, rfl⟩, rfl⟩
  have hr := Outcome.reaches_run ⟨Vm.nilCaller, [], .calling ⟨0, 2, 0⟩ []⟩ 2
  rw [hrun] at hr
  obtain ⟨e', hend⟩ := Option.isSome_iff_exists.mp hend
  obtain ⟨hends, hcalm⟩ := Machine.endOfCall_ends hend
  obtain ⟨e, hends', hsame⟩ :=
    (inline_call_agrees Vm.nilCaller (.call ⟨0, 2, 0⟩ []) hr hcall hcalm).1 e' hends
  exact ⟨vm, vm', e, e', hr, hcall, hends, hends', hsame⟩

end ObjectMachine
