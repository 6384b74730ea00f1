import ObjectMachine.Proofs.Machine.Footing
import ObjectMachine.Proofs.Vm.Ordinary

/-!
# ObjectMachine.Proofs.Machine.Sites

Which instructions the active frames are executing.

* `ActiveFrame.Executes` — a frame has moved past an instruction and waits for its end.
* `Machine.Paused` — every active frame waits for the end of a call, but for the running one.
* `Machine.Paused.step`, `Machine.Paused.resume` — every step keeps that.
* `Machine.Executes` — the addresses of the instructions that a task is executing.
* `Machine.Origin.sites` — these are the addresses that a failure finds.
-/

namespace ObjectMachine

open ObjectMachine.Action

/-! ## Frames that wait -/

namespace ActiveFrame

/-- The frame has moved past the instruction at `addr`, of the kind `op`. -/
def Executes (f : ActiveFrame) (addr : Nat) (op : Op) : Prop :=
  f.ip = addr + 1 ∧ ∃ i, f.unit.code[addr]? = some i ∧ i.op? = some op

/-- The frame waits for the end of an instruction. -/
def Waits (f : ActiveFrame) (op : Op) : Prop :=
  ∃ addr, f.Executes addr op

theorem At.waits {f : ActiveFrame} {op : Op} (h : f.At op) : (f.goTo (f.ip + 1)).Waits op :=
  ⟨f.ip, rfl, h⟩

/-- The address is the one that a backtrace has. -/
theorem Waits.executes {f : ActiveFrame} {op : Op} (h : f.Waits op) : f.Executes (f.ip - 1) op := by
  obtain ⟨addr, hip, hi⟩ := h
  rw [hip, Nat.add_sub_cancel]
  exact ⟨hip, hi⟩

end ActiveFrame

/-- All frames wait for the end of a call. -/
def AllCalling (fs : Array ActiveFrame) : Prop :=
  ∀ f ∈ fs, f.Waits .call

/-- The innermost frame may also wait for a new task. -/
structure AllWaiting (fs : Array ActiveFrame) : Prop where
  outer : AllCalling fs.pop
  innermost : ∀ f, fs.back? = some f → f.Waits .call ∨ f.Waits .spawn

section Arrays

variable {fs : Array ActiveFrame} {f : ActiveFrame}

theorem AllCalling.push (h : AllCalling fs) (hf : f.Waits .call) : AllCalling (fs.push f) := by
  intro g hg
  rcases Array.mem_push.mp hg with hg | rfl
  · exact h g hg
  · exact hf

theorem AllCalling.pop (h : AllCalling fs) : AllCalling fs.pop :=
  fun f hf => h f (by
    rw [Array.mem_def, Array.toList_pop] at hf
    exact Array.mem_def.mpr (List.mem_of_mem_dropLast hf))

theorem AllCalling.of_push_pop (h : AllCalling (fs.push f).pop) : AllCalling fs := by
  rwa [Array.pop_push] at h

theorem AllCalling.pop_push (h : AllCalling fs) (f : ActiveFrame) : AllCalling (fs.push f).pop := by
  rwa [Array.pop_push]

theorem AllCalling.waiting (h : AllCalling fs) : AllWaiting fs :=
  ⟨h.pop, fun f hf => .inl (h f (Array.mem_of_back? hf))⟩

theorem AllCalling.push_spawn (h : AllCalling fs) (hf : f.Waits .spawn) :
    AllWaiting (fs.push f) where
  outer := h.pop_push f
  innermost g hg := by
    rw [Array.back?_push] at hg
    cases hg
    exact .inr hf

end Arrays

/-- What the frames wait for while the machine is in a mode. The frame whose instruction has failed
is still there until its loop is over. -/
def Machine.Paused (m : Machine) : Prop :=
  match m.mode with
  | .running => AllCalling m.vm.frames.pop
  | .calling _ _ | .constructing _ _ => AllCalling m.vm.frames
  | .returning _ | .waiting _ => AllWaiting m.vm.frames
  | .raising _ => AllCalling m.vm.frames.pop ∧
    ((∃ floor base ks, m.konts = .loop floor base :: ks) ∨ AllWaiting m.vm.frames)

/-- The same of what a step leads to. -/
def Outcome.Paused : Outcome → Prop
  | .next m | .blocked m _ => m.Paused
  | _ => True

theorem Machine.Paused.of_waiting {vm : Vm} (h : AllWaiting vm.frames) (konts : List Kont)
    (e : Error) : Machine.Paused ⟨vm, konts, .raising e⟩ :=
  ⟨h.outer, .inr h⟩

/-! ## Instructions -/

namespace Vm

variable {vm vm' : Vm} {outer : Array ActiveFrame} {f : ActiveFrame} {floor : Nat}

/-- A look at the collector leaves the frames. -/
theorem tick_ok {u : Vm} (h : tick vm = .ok () u) : u.frames = vm.frames := by
  have hctx := Steady.context (a := tick) vm
  rw [h] at hctx
  exact congrArg Context.frames hctx

/-- Returning leaves the frames below the one that is over, and does not fail. -/
theorem returnFrom_frames (hframes : vm.frames = outer.push f) (floor : Nat) (v : Ref) :
    ∃ flow u, returnFrom floor v vm = .ok flow u ∧ u.frames = outer ∧
      (flow = .next ∨ flow = .leave v) := by
  obtain ⟨t, hleave, hctx⟩ := leaveFrame_run hframes
  have ht : t.frames = outer := congrArg Context.frames hctx
  unfold returnFrom
  rw [bind_ok hleave]
  show ∃ flow u, (ite (t.frames.size ≤ floor) _ _ : Action Flow) t = .ok flow u ∧ _
  split
  · exact ⟨_, _, rfl, ht, .inr rfl⟩
  · exact ⟨_, _, rfl, ht, .inl rfl⟩

section Calls

variable {callee : Ref} {args : List Ref} {u : Vm} {e : Stop}

/-- A call that is answered leaves the frames, or one that it enters is on top of them. -/
theorem call_frames {reply : Reply} (h : call callee args vm = .ok reply u) :
    u.frames = vm.frames ∧ (∀ floor base, reply ≠ .entered floor base) ∨
      ∃ f floor base, u.frames = vm.frames.push f ∧ reply = .entered floor base := by
  rcases call_ends callee args vm with ⟨e, u', hrun, -⟩ | ⟨hrun, hctx, hr⟩ | ⟨hrun, hctx⟩
  · cases hrun.symm.trans h
  · cases hrun.symm.trans h
    exact .inl ⟨congrArg Context.frames hctx, hr⟩
  · cases hrun.symm.trans h
    exact .inr ⟨_, _, _, congrArg Context.frames hctx, rfl⟩

theorem call_error (h : call callee args vm = .error e u) : u.frames = vm.frames := by
  rcases call_ends callee args vm with ⟨s, u', hrun, hctx, -⟩ | ⟨hrun, -⟩ | ⟨hrun, -⟩
  · cases hrun.symm.trans h
    exact congrArg Context.frames hctx
  · cases hrun.symm.trans h
  · cases hrun.symm.trans h

/-- The same of a method that is entered from outside of the running loop. -/
theorem enterLoop_frames {heights : Nat × Nat} (h : enterLoop callee args vm = .ok heights u) :
    ∃ f, u.frames = vm.frames.push f := by
  rcases enterLoop_cases callee args vm with ⟨e, u', hrun, -⟩ | ⟨f, u', hrun, hctx⟩
  · cases hrun.symm.trans h
  · cases hrun.symm.trans h
    exact ⟨_, congrArg Context.frames hctx⟩

theorem enterLoop_error (h : enterLoop callee args vm = .error e u) : u.frames = vm.frames := by
  rcases enterLoop_cases callee args vm with ⟨s, u', hrun, hctx, -⟩ | ⟨f, u', hrun, -⟩
  · cases hrun.symm.trans h
    exact congrArg Context.frames hctx
  · cases hrun.symm.trans h

end Calls

/-- What the frames wait for after an instruction of a loop. -/
theorem stepLoop_paused (hframes : vm.frames = outer.push f) (h : AllCalling outer) {flow : Flow}
    (hrun : stepLoop floor vm = .ok flow vm') :
    match flow with
    | .next => AllCalling vm'.frames.pop
    | .leave _ | .call _ _ _ => AllCalling vm'.frames
    | .wait _ _ => AllWaiting vm'.frames := by
  unfold stepLoop performIn at hrun
  obtain ⟨_, u, htick, hrun⟩ := bind_eq_ok.mp hrun
  obtain ⟨flow', u', hperform, hrun⟩ := bind_eq_ok.mp hrun
  have hends := perform_performs ((tick_ok htick).trans hframes)
  rw [hperform] at hends
  cases hends with
  | stays hu =>
    obtain ⟨rfl, rfl⟩ := pure_eq_ok.mp hrun
    exact hu ▸ h.pop_push _
  | enters hat hu =>
    obtain ⟨rfl, rfl⟩ := pure_eq_ok.mp hrun
    exact hu ▸ (h.push hat.waits).pop_push _
  | calls hat hu =>
    obtain ⟨rfl, rfl⟩ := pure_eq_ok.mp hrun
    exact hu ▸ h.push hat.waits
  | waits hat hu =>
    obtain ⟨rfl, rfl⟩ := pure_eq_ok.mp hrun
    exact hu ▸ h.push_spawn hat.waits
  | leaves hu =>
    -- the frame is over, and those below it are left
    obtain ⟨flow'', t, hreturn, ht, hflow⟩ := returnFrom_frames hu floor _
    cases hreturn.symm.trans hrun
    rcases hflow with rfl | rfl
    · exact ht ▸ h.pop
    · exact ht ▸ h

/-- When an instruction fails, its frame has moved past it. -/
theorem stepLoop_raises (hframes : vm.frames = outer.push f) {e : Error}
    (hrun : stepLoop floor vm = .error (.raised e) vm') :
    (∃ i, f.unit.code[f.ip]? = some i) ∧ vm'.frames = outer.push (f.goTo (f.ip + 1)) := by
  unfold stepLoop performIn at hrun
  rcases bind_eq_error.mp hrun with htick | ⟨_, u, htick, hrun⟩
  · exact absurd htick (Unraised.ne_raised _ _ _)
  have hends := perform_performs ((tick_ok htick).trans hframes)
  rcases bind_eq_error.mp hrun with hperform | ⟨flow, u', hperform, hrun⟩
  · rw [hperform] at hends
    cases hends with
    | fails hi hu => exact ⟨⟨_, hi⟩, hu⟩
  · rw [hperform] at hends
    cases hends with
    | leaves hu =>
      obtain ⟨flow', t, hreturn, -⟩ := returnFrom_frames hu floor _
      cases hreturn.symm.trans hrun
    | _ => cases hrun

end Vm

/-! ## Steps -/

namespace Machine

variable {c₀ : Context} {vm : Vm} {konts : List Kont}

section ContinueWith

variable {α : Type} {a : Action α} {f : α → Vm → Machine}

theorem continueWith_paused (hok : ∀ x vm', a vm = .ok x vm' → (f x vm').Paused)
    (hraise : ∀ e vm', a vm = .error (.raised e) vm' → Paused ⟨vm', konts, .raising e⟩) :
    (continueWith a vm konts f).Paused := by
  unfold continueWith
  cases hrun : a vm with
  | ok x vm' => exact hok x vm' hrun
  | error s vm' =>
    cases s with
    | raised e => exact hraise e vm' hrun
    | fatal f => trivial
    | crashed => trivial

/-- Going on after an action that leaves the frames. -/
theorem continueWith_waiting [Firm a] (h : AllWaiting vm.frames)
    (hf : ∀ x u, AllWaiting u.frames → (f x u).Paused) : (continueWith a vm konts f).Paused := by
  refine continueWith_paused (fun x u hrun => ?_) fun e u hrun => ?_
  · rw [← Firm.of_ok hrun] at h
    exact hf x u h
  · rw [← Firm.of_error hrun] at h
    exact .of_waiting h konts e

end ContinueWith

/-- What a call is answered with, other than a frame. -/
theorem ofReply_paused (h : AllCalling vm.frames) {reply : Reply}
    (hr : ∀ floor base, reply ≠ .entered floor base) : (ofReply konts reply vm).Paused := by
  cases reply with
  | value r => exact h.waiting
  | wait request => exact h.waiting
  | entered floor base => exact absurd rfl (hr floor base)
  | _ => exact h

theorem calling_paused (h : AllCalling vm.frames) (callee : Ref) (args : List Ref) :
    (continueWith (Vm.call callee args) vm konts (ofReply konts)).Paused := by
  refine continueWith_paused (fun reply u hrun => ?_) fun e u hrun => ?_
  · rcases Vm.call_frames hrun with ⟨hframes, hr⟩ | ⟨f, floor, base, hframes, rfl⟩
    · exact ofReply_paused (hframes ▸ h) hr
    · show AllCalling u.frames.pop
      exact hframes ▸ h.pop_push f
  · rw [← Vm.call_error hrun] at h
    exact .of_waiting h.waiting konts e

theorem constructing_paused (h : AllCalling vm.frames) (cls : Ref) (args : List Ref) :
    (continueWith (Vm.construct cls args) vm konts (ofReply konts)).Paused := by
  refine continueWith_paused (fun reply u hrun => ?_) fun e u hrun => ?_
  · rw [← Firm.of_ok hrun] at h
    refine ofReply_paused h ?_
    rintro floor base rfl
    exact Settled.not_entered vm u floor base hrun
  · rw [← Firm.of_error hrun] at h
    exact .of_waiting h.waiting konts e

theorem returning_paused (h : AllWaiting vm.frames) (v : Ref) :
    (stepReturning v vm konts).Paused := by
  rcases konts with _ | ⟨_ | _ | _ | _ | _, konts⟩
  case cons.operands => exact continueWith_waiting h fun _ _ h => h.outer
  case cons.attempt => exact continueWith_waiting h fun _ _ h => h
  case cons.loop => trivial
  case nil => trivial
  all_goals exact h

/-- A loop that fails takes its frames away, those which wait below it stay. -/
theorem unwinding_paused {floor base : Nat}
    (hb : c₀.Balanced (.loop floor base :: konts) vm.context) (h : AllCalling vm.frames.pop)
    (e : Error) :
    (stepRaising e vm (.loop floor base :: konts)).Paused := by
  obtain ⟨d, inner, hw, -, rfl, rfl⟩ := hb.of_loop
  obtain ⟨init, f, low, high, rfl, -⟩ := hw.split
  have hframes : vm.frames = (d.frames ++ init.toArray).push f := hw.frames_eq
  have hbelow : AllCalling d.frames := fun g hg => by
    rw [hframes] at h
    exact h.of_push_pop g (Array.mem_append_left _ hg)
  have hshrink : vm.frames.shrink d.frames.size = d.frames := congrArg Context.frames hw.unwind
  have hctx := Steady.context (a := announce e d.frames.size) vm
  refine continueWith_paused (fun v vm' hrun => ?_) fun e' vm' hrun => ?_
  · rw [unwind_run] at hrun
    cases hannounce : announce e d.frames.size vm with
    | error s u =>
      rw [hannounce] at hrun
      cases hrun
    | ok v u =>
      rw [hannounce] at hrun hctx
      cases hrun
      have hu : u.frames = vm.frames := congrArg Context.frames hctx
      refine .of_waiting ?_ konts _
      show AllWaiting (u.frames.shrink d.frames.size)
      rw [hu, hshrink]
      exact hbelow.waiting
  · rw [unwind_run] at hrun
    cases hannounce : announce e d.frames.size vm with
    | ok v u =>
      rw [hannounce] at hrun
      cases hrun
    | error s u =>
      rw [hannounce] at hrun
      cases hrun
      exact absurd hannounce (Unraised.ne_raised _ _ _)

theorem raising_paused (hb : c₀.Balanced konts vm.context) (e : Error)
    (h : Paused ⟨vm, konts, .raising e⟩) : (stepRaising e vm konts).Paused := by
  obtain ⟨hpop, ⟨floor, base, ks, hk⟩ | h⟩ := h
  · obtain rfl : konts = _ := hk
    exact unwinding_paused hb hpop e
  · rcases konts with _ | ⟨_ | _ | _ | _ | _, konts⟩
    case nil => trivial
    case cons.loop => exact unwinding_paused hb hpop e
    case cons.operands => exact .of_waiting h konts e
    case cons.fill => exact ⟨hpop, .inr h⟩
    case cons.attempt => exact continueWith_waiting h fun _ _ h => h
    case cons.guard => exact continueWith_waiting h fun _ _ h => .of_waiting h konts _

theorem running_paused {floor base : Nat} (hb : c₀.Balanced (.loop floor base :: konts) vm.context)
    (h : AllCalling vm.frames.pop) : (stepRunning vm (.loop floor base :: konts)).Paused := by
  obtain ⟨⟨outer, f, hframes, -⟩, -⟩ := hb.running
  have hframes : vm.frames = outer.push f := hframes
  rw [hframes] at h
  refine continueWith_paused (fun flow vm' hrun => ?_) fun e vm' hrun => ?_
  · have hends := Vm.stepLoop_paused hframes h.of_push_pop hrun
    cases flow with
    | leave v => exact AllCalling.waiting hends
    | _ => exact hends
  · obtain ⟨-, hframes'⟩ := Vm.stepLoop_raises hframes hrun
    refine ⟨?_, .inl ⟨_, _, _, rfl⟩⟩
    show AllCalling vm'.frames.pop
    exact hframes' ▸ h.of_push_pop.pop_push _

/-- Every step keeps what the frames wait for. -/
theorem Paused.step {m : Machine} (hb : m.Balanced c₀) (h : m.Paused) : m.step.Paused := by
  obtain ⟨vm, konts, mode⟩ := m
  cases mode with
  | running =>
    obtain ⟨floor, base, ks, hk⟩ := hb.running rfl
    obtain rfl : konts = _ := hk
    exact running_paused hb.konts h
  | calling callee args => exact calling_paused h callee args
  | constructing cls args => exact constructing_paused h cls args
  | returning v => exact returning_paused h v
  | raising e => exact raising_paused hb.konts e h
  | waiting request => exact h

theorem Paused.resume {m : Machine} {request : Request} (hmode : m.mode = .waiting request)
    (h : m.Paused) (a : Answer) : (m.resume a).Paused := by
  obtain ⟨vm, konts, mode⟩ := m
  obtain rfl : mode = _ := hmode
  exact continueWith_waiting h fun _ _ h => h

/-- The same frames wait for the same. -/
theorem Paused.of_frames {m : Machine} {u : Vm} (hframes : u.frames = m.vm.frames) (h : m.Paused) :
    Paused { m with vm := u } := by
  unfold Paused at h ⊢
  rw [hframes]
  exact h

/-! ## Failures -/

/-- The machine executes the instructions at some addresses, one of each frame, innermost first. A
running frame is about to execute its instruction, and all others have moved past theirs. -/
structure Executes (m : Machine) (sites : List (ActiveFrame × Nat)) : Prop where
  frames : sites.map Prod.fst = m.vm.frames.toList.reverse
  outer : ∀ s ∈ sites.tail, s.1.Executes s.2 .call
  innermost : ∀ s, sites.head? = some s →
    (m.mode = .running ∧ s.2 = s.1.ip ∧ ∃ i, s.1.unit.code[s.2]? = some i) ∨
    (m.mode ≠ .running ∧ (s.1.Executes s.2 .call ∨ s.1.Executes s.2 .spawn))

/-- The line of a frame in a backtrace, with the address of an instruction. -/
def backtraceLine (site : ActiveFrame × Nat) : String :=
  site.1.unit.name ++ " @" ++ toString site.2

/-- A frame that waits is just past its instruction. -/
theorem Executes.of_waiting {m : Machine} (hmode : m.mode ≠ .running)
    (h : AllWaiting m.vm.frames) :
    m.Executes (m.vm.frames.toList.reverse.map fun f => (f, f.ip - 1)) where
  frames := by simp [Function.comp_def]
  outer s hs := by
    rw [← List.map_tail, List.tail_reverse, ← Array.toList_pop] at hs
    obtain ⟨f, hf, rfl⟩ := List.mem_map.mp hs
    exact (h.outer f (Array.mem_def.mpr (List.mem_reverse.mp hf))).executes
  innermost s hs := by
    rw [List.head?_map, List.head?_reverse, Array.getLast?_toList] at hs
    obtain ⟨f, hf, rfl⟩ := Option.map_eq_some_iff.mp hs
    exact .inr ⟨hmode, (h.innermost f hf).imp ActiveFrame.Waits.executes ActiveFrame.Waits.executes⟩

/-- A failure finds the addresses of the instructions that were being executed. -/
theorem Origin.sites {m m' : Machine} {e : Error} (hb : m.Balanced c₀) (hp : m.Paused)
    (h : m.Origin e m') :
    ∃ sites, m.Executes sites ∧
      m'.vm.backtrace = sites.map backtraceLine := by
  have hwaiting : AllWaiting m.vm.frames → m.mode ≠ .running → m'.vm.frames = m.vm.frames →
      ∃ sites, m.Executes sites ∧
        m'.vm.backtrace = sites.map backtraceLine := by
    intro hw hmode hframes
    refine ⟨_, .of_waiting hmode hw, ?_⟩
    rw [Vm.backtrace, hframes, List.map_map]
    rfl
  unfold Paused at hp
  cases h with
  | @instruction floor base ks u hmode hkonts hrun =>
    obtain ⟨⟨outer, f, hframes, -⟩, -⟩ := (hkonts ▸ hb.konts).running
    have hframes : m.vm.frames = outer.push f := hframes
    obtain ⟨hi, hframes'⟩ := Vm.stepLoop_raises hframes hrun
    rw [hmode, hframes] at hp
    refine ⟨(f, f.ip) :: outer.toList.reverse.map fun g => (g, g.ip - 1), ⟨?_, ?_, ?_⟩, ?_⟩
    · simp [hframes, Function.comp_def]
    · intro s hs
      obtain ⟨g, hg, rfl⟩ := List.mem_map.mp hs
      exact (hp.of_push_pop g (Array.mem_def.mpr (List.mem_reverse.mp hg))).executes
    · rintro s ⟨⟩
      exact .inl ⟨hmode, rfl, hi⟩
    · simp [Vm.backtrace, backtraceLine, hframes', ActiveFrame.goTo]
  | call hmode hrun =>
    rw [hmode] at hp
    exact hwaiting hp.waiting (by simp [hmode]) (Vm.call_error hrun)
  | construct hmode hrun =>
    rw [hmode] at hp
    exact hwaiting hp.waiting (by simp [hmode]) (Firm.of_error hrun)
  | answer hmode hrun =>
    rw [hmode] at hp
    exact hwaiting hp (by simp [hmode]) (Firm.of_error hrun)

end Machine
end ObjectMachine
