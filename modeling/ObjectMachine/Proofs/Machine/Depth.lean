import ObjectMachine.Proofs.Machine.Footing
import ObjectMachine.Proofs.Machine.InlineCalls
import ObjectMachine.Proofs.Vm.Ordinary

/-!
# ObjectMachine.Proofs.Machine.Depth

How deep calls get, and which of them are refused.

* `Context.Shallow` — frames and loops within their limits.
* `Sparing` — the actions that keep them there. The instances follow the definitions.
* `Machine.Enters` — a step that enters a bytecode method, in one of the two ways.
* `Machine.Enters.refused_iff`, `Machine.Enters.of_refuses` — such a step is refused if there is no
  room for the frame or for the loop, and no other step is.
* `depth_limited` — in a run that begins without frames, both hold at every step.
-/

namespace ObjectMachine

open ObjectMachine.Action

/-! ## Limits -/

/-- Frames and loops are within their limits. A loop is counted after its first frame was let in,
so both together can be one more than the frames alone. -/
structure Context.Shallow (c : Context) : Prop where
  frames : c.frames.size ≤ c.config.maxFrames
  loops : c.loops ≤ c.config.maxNativeDepth
  both : c.frames.size + c.loops ≤ c.config.maxFrames + 2

namespace Context.Shallow

variable {c d : Context}

theorem of_le (h : c.Shallow) (hframes : d.frames.size ≤ c.frames.size) (hloops : d.loops ≤ c.loops)
    (hconfig : d.config = c.config) : d.Shallow := by
  obtain ⟨hf, hl, hb⟩ := h
  rw [← hconfig] at hf hl hb
  exact ⟨by omega, by omega, by omega⟩

theorem pushFrame (h : c.Shallow) (f : ActiveFrame)
    (hroom : c.frames.size + (c.loops - 1) < c.config.maxFrames) : (c.pushFrame f).Shallow := by
  have hsize : (c.pushFrame f).frames.size = c.frames.size + 1 := Array.size_push ..
  refine ⟨?_, h.loops, ?_⟩
  · rw [hsize]
    show _ ≤ c.config.maxFrames
    omega
  · rw [hsize]
    show _ + c.loops ≤ c.config.maxFrames + 2
    omega

theorem pushLoop (f : ActiveFrame) (hloops : c.loops < c.config.maxNativeDepth)
    (hroom : c.frames.size + (c.loops - 1) < c.config.maxFrames) : (c.pushLoop f).Shallow := by
  have hsize : (c.pushLoop f).frames.size = c.frames.size + 1 := Array.size_push ..
  refine ⟨?_, hloops, ?_⟩
  · rw [hsize]
    show _ ≤ c.config.maxFrames
    omega
  · rw [hsize]
    show _ + (c.loops + 1) ≤ c.config.maxFrames + 2
    omega

end Context.Shallow

/-- An action that keeps frames and loops within their limits, whether or not it fails. -/
class Sparing {α : Type} (a : Action α) : Prop where
  shallow : ∀ {vm : Vm}, vm.context.Shallow → (final (a vm)).context.Shallow

namespace Sparing

variable {α β : Type}

instance firm (a : Action α) [ha : Firm a] : Sparing a := by
  constructor
  intro vm h
  have hfooting := ha.footing vm
  have hframes : (final (a vm)).frames = vm.frames := congrArg Vm.Footing.frames hfooting
  have hloops : (final (a vm)).loops = vm.loops := congrArg Vm.Footing.loops hfooting
  exact h.of_le (Nat.le_of_eq (congrArg _ hframes)) (Nat.le_of_eq hloops)
    (congrArg Vm.Footing.config hfooting)

instance bind (a : Action α) (f : α → Action β) [ha : Sparing a] [hf : ∀ x, Sparing (f x)] :
    Sparing (a >>= f) := by
  constructor
  intro vm h
  have hrun := ha.shallow h
  cases hout : a vm with
  | ok x vm' =>
    rw [hout] at hrun
    rw [bind_ok hout]
    exact (hf x).shallow hrun
  | error e vm' =>
    rw [hout] at hrun
    rw [bind_error hout]
    exact hrun

theorem get_bind {f : Vm → Action α} [h : ∀ vm, Sparing (f vm)] : Sparing (get >>= f) :=
  ⟨fun {vm} hvm => (h vm).shallow hvm⟩

theorem changing {f : Vm → Vm} (hframes : ∀ vm, (f vm).frames.size ≤ vm.frames.size)
    (hloops : ∀ vm, (f vm).loops ≤ vm.loops) (hconfig : ∀ vm, (f vm).config = vm.config) :
    Sparing (modify f : Action Unit) :=
  ⟨fun {vm} h => h.of_le (hframes vm) (hloops vm) (hconfig vm)⟩

/-! ## Frames -/

instance goto (addr : Nat) : Sparing (Vm.goto addr) :=
  changing (fun _ => Nat.le_of_eq (Array.size_modify ..)) (fun _ => Nat.le_refl _) fun _ => rfl

instance leaveFrame : Sparing Vm.leaveFrame := by
  unfold Vm.leaveFrame
  have hdrop : ∀ f : ActiveFrame, Sparing (modify fun vm =>
      { vm with frames := vm.frames.pop, stack := vm.stack.shrink f.base } : Action Unit) :=
    fun f => changing (fun vm => by simp) (fun _ => Nat.le_refl _) fun _ => rfl
  have htrace : ∀ f : ActiveFrame,
      Steady (Vm.trace Channels.vm "vm" fun _ => s!"leave {f.unit.name}") :=
    fun f => (Quiet.traceOf fun _ _ _ => rfl).toSteady
  infer_instance

instance returnFrom (floor : Nat) (v : Ref) : Sparing (Vm.returnFrom floor v) := by
  unfold Vm.returnFrom
  have hleave : Sparing (modify fun vm => { vm with loops := vm.loops - 1 } : Action Unit) :=
    changing (fun _ => Nat.le_refl _) (fun _ => Nat.sub_le _ _) fun _ => rfl
  refine @bind _ _ _ _ _ fun _ => @get_bind _ _ fun vm => ?_
  split <;> infer_instance

/-- A frame is let in if there is room for it. -/
instance enter (method : Ref) (args : List Ref) : Sparing (Vm.enter method args) := by
  constructor
  intro vm h
  by_cases hfull : vm.callDepth ≥ vm.config.maxFrames
  · rw [Vm.enter_overflows.mpr ⟨hfull, rfl, rfl⟩]
    exact h
  · rcases Vm.enter_cases method args vm with ⟨e, vm', hrun, hctx, -⟩ | ⟨f, vm', hrun, hctx⟩
    · rw [hrun]
      exact hctx ▸ h
    · rw [hrun]
      show vm'.context.Shallow
      rw [hctx]
      exact h.pushFrame f (Nat.lt_of_not_le hfull)

instance enterLoop (method : Ref) (args : List Ref) : Sparing (Vm.enterLoop method args) := by
  constructor
  intro vm h
  by_cases hfull : vm.loops ≥ vm.config.maxNativeDepth ∨ vm.callDepth ≥ vm.config.maxFrames
  · rw [Vm.enterLoop_overflows.mpr ⟨hfull, rfl, rfl⟩]
    exact h
  · rw [not_or] at hfull
    rcases Vm.enterLoop_cases method args vm with ⟨e, vm', hrun, hctx, -⟩ | ⟨f, vm', hrun, hctx⟩
    · rw [hrun]
      exact hctx ▸ h
    · rw [hrun]
      show vm'.context.Shallow
      rw [hctx]
      exact .pushLoop f (Nat.lt_of_not_le hfull.1) (Nat.lt_of_not_le hfull.2)

/-! ## Calls and instructions -/

instance callMethod (method : Ref) (args : List Ref) : Sparing (Vm.callMethod method args) := by
  unfold Vm.callMethod
  refine @bind _ _ _ _ _ fun p => ?_
  cases p with
  | method m =>
    dsimp only
    split <;> infer_instance
  | _ => infer_instance

instance call (callee : Ref) (args : List Ref) : Sparing (Vm.call callee args) := by
  unfold Vm.call
  refine @bind _ _ _ _ _ fun f => ?_
  cases f <;> infer_instance

instance execute (op : Op) (i : Instr) : Sparing (Vm.execute op i) := by
  cases op with
  | jump =>
    unfold Vm.execute
    infer_instance
  | jumpIfTrue =>
    refine @bind _ _ _ _ _ fun v => @bind _ _ _ _ _ fun b => ?_
    dsimp only
    split <;> infer_instance
  | jumpIfFalse =>
    refine @bind _ _ _ _ _ fun v => @bind _ _ _ _ _ fun b => ?_
    dsimp only
    split <;> infer_instance
  | call =>
    refine @bind _ _ _ _ _ fun operands => ?_
    cases operands with
    | nil => infer_instance
    | cons callee args =>
      refine @bind _ _ _ _ _ fun b => ?_
      split <;> infer_instance
  | _ =>
    refine @firm _ _ (Firm.execute ?_ ?_ i) <;> decide

instance fetch : Sparing Vm.fetch := by
  unfold Vm.fetch
  refine @bind _ _ _ _ _ fun f => ?_
  split <;> infer_instance

instance perform : Sparing Vm.perform := by
  unfold Vm.perform
  refine @bind _ _ _ _ _ fun found => ?_
  cases found with
  | none => infer_instance
  | some i =>
    dsimp only
    split <;> infer_instance

instance stepLoop (floor : Nat) : Sparing (Vm.stepLoop floor) := by
  unfold Vm.stepLoop Vm.performIn
  refine @bind _ _ _ _ _ fun _ => @bind _ _ _ _ _ fun flow => ?_
  cases flow <;> infer_instance

instance unwind (e : Error) (floor base : Nat) : Sparing (Machine.unwind e floor base) := by
  constructor
  intro vm h
  have hctx := Steady.context (a := Machine.announce e floor) vm
  rw [Machine.unwind_run]
  cases hrun : Machine.announce e floor vm with
  | ok v u =>
    rw [hrun] at hctx
    have hu : u.context.Shallow := hctx ▸ h
    refine hu.of_le ?_ (Nat.sub_le _ _) rfl
    show (u.frames.shrink floor).size ≤ u.frames.size
    simp
  | error s u =>
    rw [hrun] at hctx
    exact hctx ▸ h

end Sparing

/-! ## Steps and runs -/

/-- The frames and loops are within their limits in whatever a step leads to. -/
def Outcome.Shallow : Outcome → Prop
  | .next m | .blocked m _ => m.vm.context.Shallow
  | .done vm _ => vm.context.Shallow
  | .fatal _ _ | .crashed _ => True

namespace Machine

theorem continueWith_shallow {α : Type} {a : Action α} [ha : Sparing a] {vm : Vm}
    {konts : List Kont} {f : α → Vm → Machine} (h : vm.context.Shallow)
    (hf : ∀ x vm', (f x vm').vm.frames = vm'.frames ∧ (f x vm').vm.loops = vm'.loops ∧
      (f x vm').vm.config = vm'.config) : (continueWith a vm konts f).Shallow := by
  have hrun := ha.shallow h
  unfold continueWith
  cases hout : a vm with
  | ok x vm' =>
    rw [hout] at hrun
    obtain ⟨hframes, hloops, hconfig⟩ := hf x vm'
    exact hrun.of_le (Nat.le_of_eq (congrArg _ hframes)) (Nat.le_of_eq hloops) hconfig
  | error e vm' =>
    rw [hout] at hrun
    cases e with
    | raised e => exact hrun
    | fatal f => trivial
    | crashed => trivial

theorem ofReply_level (konts : List Kont) (reply : Reply) (vm : Vm) :
    (ofReply konts reply vm).vm.frames = vm.frames ∧
      (ofReply konts reply vm).vm.loops = vm.loops ∧
      (ofReply konts reply vm).vm.config = vm.config := by
  cases reply <;> exact ⟨rfl, rfl, rfl⟩

theorem returning_shallow {vm : Vm} (h : vm.context.Shallow) (v : Ref) :
    ∀ konts, (stepReturning v vm konts).Shallow
  | [] => h
  | .loop _ _ :: _ => trivial
  | .operands _ :: _ => continueWith_shallow h fun _ _ => ⟨rfl, rfl, rfl⟩
  | .fill _ :: _ => h.of_le (Nat.le_refl _) (Nat.le_refl _) rfl
  | .attempt :: _ => continueWith_shallow h fun _ _ => ⟨rfl, rfl, rfl⟩
  | .guard :: _ => h

theorem raising_shallow {vm : Vm} (h : vm.context.Shallow) (e : Error) :
    ∀ konts, (stepRaising e vm konts).Shallow
  | [] => h
  | .loop _ _ :: _ => continueWith_shallow h fun _ _ => ⟨rfl, rfl, rfl⟩
  | .operands _ :: _ => h
  | .fill _ :: _ => h.of_le (Nat.le_refl _) (Nat.le_refl _) rfl
  | .attempt :: _ => continueWith_shallow h fun _ _ => ⟨rfl, rfl, rfl⟩
  | .guard :: _ => continueWith_shallow h fun _ _ => ⟨rfl, rfl, rfl⟩

theorem running_shallow {vm : Vm} (h : vm.context.Shallow) :
    ∀ konts, (stepRunning vm konts).Shallow
  | .loop _ _ :: _ => continueWith_shallow h fun flow _ => by cases flow <;> exact ⟨rfl, rfl, rfl⟩
  | [] | .operands _ :: _ | .fill _ :: _ | .attempt :: _ | .guard :: _ => trivial

theorem step_shallow {m : Machine} (h : m.vm.context.Shallow) : m.step.Shallow := by
  obtain ⟨vm, konts, mode⟩ := m
  cases mode with
  | running => exact running_shallow h konts
  | calling callee args => exact continueWith_shallow h (ofReply_level konts)
  | constructing cls args => exact continueWith_shallow h (ofReply_level konts)
  | returning v => exact returning_shallow h v konts
  | raising e => exact raising_shallow h e konts
  | waiting request => exact h

end Machine

theorem Entry.begin_shallow {vm : Vm} (h : vm.context.Shallow) (entry : Entry) :
    (entry.begin vm).Shallow := by
  cases entry with
  | bytecode method args => exact Machine.continueWith_shallow h fun _ _ => ⟨rfl, rfl, rfl⟩
  | _ => exact h

theorem Outcome.Shallow.reaches {o o' : Outcome} (h : o.Shallow) (hr : o.Reaches o') :
    o'.Shallow := by
  induction hr with
  | refl => exact h
  | tail _ hl ih =>
    cases hl with
    | step m => exact Machine.step_shallow ih
    | answer m request a => exact Machine.continueWith_shallow ih fun _ _ => ⟨rfl, rfl, rfl⟩

/-- Every loop has a frame at least, and the settings stay. -/
theorem Context.Balanced.level {c₀ c : Context} {ks : List Kont} (h : c₀.Balanced ks c) :
    c.config = c₀.config ∧ (c₀.loops ≤ c₀.frames.size → c.loops ≤ c.frames.size) := by
  induction h with
  | done => exact ⟨rfl, id⟩
  | guard _ ih => exact ih
  | attempt _ ih => exact ih
  | fill _ ih => exact ih
  | operands _ _ ih => exact ih
  | @loop ks c d inner hw _ ih =>
    have hframes := congrArg List.length hw.frames
    have hpos := List.length_pos_iff.mpr hw.nonempty
    have hloops : c.loops = d.loops + 1 := congrArg Context.loops hw.rest
    have hconfig : c.config = d.config := (congrArg Context.config hw.rest).trans rfl
    rw [List.length_append, Array.length_toList, Array.length_toList] at hframes
    refine ⟨hconfig.trans ih.1, fun h₀ => ?_⟩
    have := ih.2 h₀
    omega

/-! ## Refused calls -/

/-- There is no room for another frame, or for the loop that the call needs. -/
def Way.Full (w : Way) (vm : Vm) : Prop :=
  (w = .nested ∧ vm.loops ≥ vm.config.maxNativeDepth) ∨ vm.callDepth ≥ vm.config.maxFrames

/-- A step fails since frames or loops have run out. -/
def Outcome.Refuses (o : Outcome) : Prop :=
  ∃ m n, o = .next m ∧ m.mode = .raising (.stackOverflow n)

/-- The next step enters the bytecode method `callee` with `args`, in the state `u`. -/
inductive Machine.Enters (m : Machine) : Way → Ref → List Ref → Vm → Prop where
  | inline {callee : Ref} {args : List Ref} {u : Vm} :
      m.mode = .running → m.vm.Inlines callee args u →
      m.Enters .inline callee args (u.restack (u.callSite args).below)
  | nested {callee : Ref} {args : List Ref} :
      m.mode = .calling callee args → m.vm.Nests callee → m.Enters .nested callee args m.vm

/-- What stands at the entry of a method as it stood before: everything but the operands of an
inline call, and the address of the running frame, which is the next one. -/
structure Way.Keeps (w : Way) (callee : Ref) (args : List Ref) (vm u : Vm) : Prop where
  stack : vm.stack.toList = u.stack.toList ++ w.pick (callee :: args) []
  frames : u.frames.map (·.still) = vm.frames.map (·.still)
  loops : u.loops = vm.loops
  config : u.config = vm.config

namespace Way.Keeps

variable {w : Way} {callee : Ref} {args : List Ref} {vm u : Vm}

theorem size (h : w.Keeps callee args vm u) : u.frames.size = vm.frames.size := by
  simpa using congrArg Array.size h.frames

/-- There is as much room as before. -/
theorem full_iff (h : w.Keeps callee args vm u) : w.Full u ↔ w.Full vm := by
  rw [Way.Full, Way.Full, Vm.callDepth, Vm.callDepth, h.size, h.loops, h.config]

end Way.Keeps

namespace Vm

variable {vm vm' : Vm} {callee : Ref} {args : List Ref}

theorem peekMany_eq_ok {n : Nat} {rs : List Ref} (h : peekMany n vm = .ok rs vm') :
    n ≤ vm.stack.size ∧ rs = (vm.stack.extract (vm.stack.size - n) vm.stack.size).toList := by
  unfold peekMany at h
  obtain ⟨_, -, h⟩ := Reads.bind_eq_ok h
  obtain ⟨height, hbelow, h⟩ := Reads.bind_eq_ok h
  obtain ⟨rfl, hn⟩ := below_eq_ok hbelow
  obtain ⟨_, ⟨⟩, h⟩ := Reads.bind_eq_ok h
  obtain ⟨rfl, -⟩ := pure_eq_ok.mp h
  exact ⟨hn, rfl⟩

/-- Fetching an instruction moves the running frame on and does nothing else. -/
theorem fetch_eq_ok {i : Option Instr} (h : fetch vm = .ok i vm') :
    vm'.frames.map (·.still) = vm.frames.map (·.still) ∧ vm'.stack = vm.stack ∧
      vm'.loops = vm.loops ∧ vm'.config = vm.config := by
  unfold fetch at h
  obtain ⟨f, -, h⟩ := Reads.bind_eq_ok h
  cases hi : f.unit.code[f.ip]? with
  | none =>
    rw [hi] at h
    obtain ⟨-, rfl⟩ := pure_eq_ok.mp h
    exact ⟨rfl, rfl, rfl, rfl⟩
  | some j =>
    rw [hi] at h
    cases h
    refine ⟨?_, rfl, rfl, rfl⟩
    show (vm.frames.modify (vm.frames.size - 1) fun g => { g with ip := f.ip + 1 }).map _ = _
    ext k hk hk'
    · simp
    · simp only [Array.getElem_map, Array.getElem_modify]
      split <;> rfl

namespace Inlines

theorem size_le (h : vm.Inlines callee args vm') : args.length + 1 ≤ vm'.stack.size :=
  (peekMany_eq_ok h.operands).1

theorem keeps (h : vm.Inlines callee args vm') :
    Way.inline.Keeps callee args vm (vm'.restack (vm'.callSite args).below) := by
  obtain ⟨u, i, htick, hfetch, -, -⟩ := h.fetched
  have hctx := Steady.context (a := tick) vm
  rw [htick] at hctx
  have hstack : u.stack = vm.stack := congrArg Context.stack hctx
  have hframes : u.frames = vm.frames := congrArg Context.frames hctx
  have hloops : u.loops = vm.loops := congrArg Context.loops hctx
  have hconfig : u.config = vm.config := congrArg Context.config hctx
  obtain ⟨hstill, hstack', hloops', hconfig'⟩ := fetch_eq_ok hfetch
  refine ⟨?_, hframes ▸ hstill, hloops'.trans hloops, hconfig'.trans hconfig⟩
  have hoperands : (vm'.callSite args).operands.toList = callee :: args :=
    (peekMany_eq_ok h.operands).2.symm
  show vm.stack.toList = (vm'.callSite args).below.toList ++ (callee :: args)
  rw [← hoperands, ← Array.toList_append, ← callSite_stack, hstack', hstack]

end Inlines
end Vm

/-- The only instruction that is refused is a call of bytecode. -/
theorem Vm.Inlines.of_stepLoop {vm vm' : Vm} {floor n : Nat}
    (h : stepLoop floor vm = .error (.raised (.stackOverflow n)) vm') :
    ∃ callee args u, vm.Inlines callee args u := by
  unfold stepLoop performIn perform at h
  rcases bind_eq_error.mp h with htick | ⟨_, t, htick, h⟩
  · exact absurd rfl ((Ordinary.raises htick).ne_overflow n)
  rcases bind_eq_error.mp h with h | ⟨flow, t', -, h⟩
  swap
  · cases flow with
    | leave v => exact absurd h (Unraised.ne_raised _ _ _)
    | _ => cases h
  rcases bind_eq_error.mp h with hfetch | ⟨found, u, hfetch, h⟩
  · exact absurd hfetch (Unraised.ne_raised _ _ _)
  cases found with
  | none => exact absurd rfl ((Ordinary.raises h).ne_overflow n)
  | some i =>
    dsimp only at h
    cases hop : i.op? with
    | none =>
      rw [hop] at h
      exact absurd h (Unraised.ne_raised _ _ _)
    | some op =>
      rw [hop] at h
      by_cases hcall : op = .call
      swap
      · exact absurd rfl (((Ordinary.execute hcall i).raises h).ne_overflow n)
      subst hcall
      dsimp only [execute] at h
      rcases bind_eq_error.mp h with hpeek | ⟨operands, u', hpeek, h⟩
      · exact absurd hpeek (Unraised.ne_raised _ _ _)
      obtain rfl := Reads.of_ok hpeek
      cases operands with
      | nil => cases h
      | cons callee args =>
        rcases bind_eq_error.mp h with hbytecode | ⟨b, u'', hbytecode, h⟩
        · exact absurd rfl ((Ordinary.raises hbytecode).ne_overflow n)
        obtain rfl := Reads.of_ok hbytecode
        cases b with
        | false => cases h
        | true =>
          have hlength : i.arg1.toNat = args.length := by
            obtain ⟨hle, heq⟩ := peekMany_eq_ok hpeek
            have := congrArg List.length heq
            simp only [List.length_cons, Array.length_toList, Array.size_extract] at this
            omega
          exact ⟨callee, args, _, ⟨t, i, htick, hfetch, hop, hlength⟩, hlength ▸ hpeek, hbytecode⟩

/-- A native function that raises a value does not run out of room either. -/
theorem Vm.runNative_ne_overflow {f : Native} {args : List Ref} {vm vm' : Vm} {n : Nat} :
    runNative f args vm ≠ .error (.raised (.stackOverflow n)) vm' := by
  intro h
  by_cases hf : f = .raise
  · subst hf
    rcases args with _ | ⟨v, _ | ⟨w, rest⟩⟩ <;> cases h
  · exact absurd rfl (((Ordinary.runNative hf args).raises h).ne_overflow n)

/-- The only call that is refused is one of bytecode. -/
theorem Vm.Nests.of_call {vm vm' : Vm} {callee : Ref} {args : List Ref} {n : Nat}
    (h : call callee args vm = .error (.raised (.stackOverflow n)) vm') : vm.Nests callee := by
  unfold call at h
  rcases bind_eq_error.mp h with hslot | ⟨f, u, hslot, h⟩
  · exact absurd rfl ((Ordinary.raises hslot).ne_overflow n)
  obtain rfl := Reads.of_ok hslot
  cases f with
  | cls => exact absurd rfl ((Ordinary.raises (a := construct callee args) h).ne_overflow n)
  | arguments => exact absurd rfl ((Ordinary.raises h).ne_overflow n)
  | method =>
    dsimp only at h
    unfold callMethod at h
    rcases bind_eq_error.mp h with hp | ⟨p, u, hp, h⟩
    · exact absurd rfl ((Ordinary.raises hp).ne_overflow n)
    obtain rfl := Reads.of_ok hp
    cases p with
    | method m =>
      refine ⟨?_, hslot⟩
      unfold isBytecode
      rw [bind_ok hp]
      dsimp only at h ⊢
      cases hbody : m.body with
      | native f =>
        rw [hbody] at h
        exact absurd h runNative_ne_overflow
      | _ => rfl
    | _ => exact absurd rfl ((Ordinary.raises h).ne_overflow n)

namespace Machine

variable {c₀ : Context} {m : Machine}

section ContinueWith

variable {α : Type} {a : Action α} {vm : Vm} {konts : List Kont} {f : α → Vm → Machine}

theorem continueWith_refuses (hf : ∀ x vm' n, (f x vm').mode ≠ .raising (.stackOverflow n)) :
    (continueWith a vm konts f).Refuses ↔
      ∃ n vm', a vm = .error (.raised (.stackOverflow n)) vm' := by
  constructor
  · rintro ⟨m, n, hm⟩
    obtain ⟨u, hrun, -⟩ := (continueWith_raises fun x u => hf x u n).mp hm
    exact ⟨n, u, hrun⟩
  · rintro ⟨n, u, hrun⟩
    exact ⟨_, n, (continueWith_raises fun x u => hf x u n).mpr ⟨u, hrun, rfl⟩⟩

end ContinueWith

/-- The answer to a request is not refused. -/
theorem resume_not_refuses (m : Machine) (a : Answer) : ¬ (m.resume a).Refuses := by
  intro h
  obtain ⟨n, u, hrun⟩ := (continueWith_refuses (by rintro _ _ _ ⟨⟩)).mp h
  exact absurd rfl ((Ordinary.raises hrun).ne_overflow n)

/-- Only steps that enter a bytecode method are refused. -/
theorem Enters.of_refuses (hmode : ∀ e, m.mode ≠ .raising e) (h : m.step.Refuses) :
    ∃ w callee args u, m.Enters w callee args u := by
  obtain ⟨m', n, hm, hraising⟩ := h
  cases Origin.of_step hmode hm hraising with
  | instruction hrunning _ hrun =>
    obtain ⟨callee, args, u, hinlines⟩ := Vm.Inlines.of_stepLoop hrun
    exact ⟨_, _, _, _, .inline hrunning hinlines⟩
  | call hcalling hrun => exact ⟨_, _, _, _, .nested hcalling (.of_call hrun)⟩
  | construct _ hrun => exact absurd rfl ((Ordinary.raises hrun).ne_overflow n)
  | answer _ hrun => exact absurd rfl ((Ordinary.raises hrun).ne_overflow n)

namespace Enters

variable {w : Way} {callee : Ref} {args : List Ref} {u : Vm}

theorem keeps (h : m.Enters w callee args u) : w.Keeps callee args m.vm u := by
  cases h with
  | inline _ h => exact h.keeps
  | nested _ _ => exact ⟨(List.append_nil _).symm, rfl, rfl, rfl⟩

/-- The step enters the method in the running loop, or in one of its own. -/
theorem step_eq (hb : m.Balanced c₀) (h : m.Enters w callee args u) :
    (w = .inline ∧ m.step = continueWith (Vm.enter callee args) u m.konts
        fun _ vm => ⟨vm, m.konts, .running⟩) ∨
      w = .nested ∧ m.step = continueWith (Vm.enterLoop callee args) u m.konts
        fun p vm => ⟨vm, .loop p.1 p.2 :: m.konts, .running⟩ := by
  obtain ⟨vm, konts, mode⟩ := m
  cases h with
  | inline hmode h =>
    cases hmode
    obtain ⟨floor, base, ks, hk⟩ := hb.running rfl
    cases hk
    exact .inl ⟨rfl, h.step h.size_le⟩
  | nested hmode h =>
    cases hmode
    exact .inr ⟨rfl, h.step args konts⟩

/-- A call is refused exactly if there is no room for it. -/
theorem refused_iff (hb : m.Balanced c₀) (h : m.Enters w callee args u) :
    m.step.Refuses ↔ w.Full m.vm := by
  rw [← h.keeps.full_iff]
  rcases h.step_eq hb with ⟨rfl, hstep⟩ | ⟨rfl, hstep⟩
  · rw [hstep]
    refine (continueWith_refuses ?_).trans ?_
    · exact fun _ _ _ => nofun
    · simp [Vm.enter_overflows, Way.Full]
  · rw [hstep]
    refine (continueWith_refuses ?_).trans ?_
    · exact fun _ _ _ => nofun
    · simp [Vm.enterLoop_overflows, Way.Full]

/-- A call that is refused changes nothing else. -/
theorem step_full (hb : m.Balanced c₀) (h : m.Enters w callee args u) (hfull : w.Full m.vm) :
    m.step = .next ⟨u, m.konts, .raising (.stackOverflow m.vm.frames.size)⟩ := by
  have hfull := h.keeps.full_iff.mpr hfull
  rcases h.step_eq hb with ⟨rfl, hstep⟩ | ⟨rfl, hstep⟩
  · have hrun : Vm.enter callee args u = .error (.raised (.stackOverflow u.frames.size)) u :=
      Vm.enter_overflows.mpr ⟨by simpa [Way.Full] using hfull, rfl, rfl⟩
    rw [hstep, ← h.keeps.size]
    unfold continueWith
    rw [hrun]
  · have hrun : Vm.enterLoop callee args u = .error (.raised (.stackOverflow u.frames.size)) u :=
      Vm.enterLoop_overflows.mpr ⟨by simpa [Way.Full] using hfull, rfl, rfl⟩
    rw [hstep, ← h.keeps.size]
    unfold continueWith
    rw [hrun]

/-- A call in the running loop begins no other one. -/
theorem inline_loops (hb : m.Balanced c₀) (h : m.Enters .inline callee args u) {m' : Machine}
    (hm' : m.step = .next m') : m'.vm.loops = m.vm.loops := by
  obtain ⟨-, hstep⟩ := (h.step_eq hb).resolve_right nofun
  rw [hstep] at hm'
  rw [← h.keeps.loops]
  unfold continueWith at hm'
  rcases Vm.enter_cases callee args u with ⟨e, vm', hrun, hctx, -⟩ | ⟨f, vm', hrun, hctx⟩
  · rw [hrun] at hm'
    cases e with
    | raised e =>
      cases hm'
      exact congrArg Context.loops hctx
    | fatal f => cases hm'
    | crashed => cases hm'
  · rw [hrun] at hm'
    cases hm'
    exact congrArg Context.loops hctx

end Enters
end Machine

/-! ## Whole runs -/

/-- Frames and interpreter loops are within their limits, and no loop is without a frame. -/
structure Machine.WithinLimits (m : Machine) : Prop where
  frames : m.vm.frames.size ≤ m.vm.config.maxFrames
  loops : m.vm.loops ≤ m.vm.config.maxNativeDepth
  nested : m.vm.loops ≤ m.vm.frames.size
  both : m.vm.frames.size + m.vm.loops - 1 ≤ m.vm.config.maxFrames + 1

/-- The limits hold all along a run that begins without frames, whatever they are; a frame that is
pushed in the running loop leaves the loops as they are; and calls are refused exactly if there is
no room for them, which changes nothing but the operands of an inline call. -/
theorem depth_limited {vm₀ : Vm} (hframes : vm₀.frames = #[]) (hloops : vm₀.loops = 0)
    (entry : Entry) :
    (∀ method args, ((Entry.begin vm₀ (.bytecode method args)).Refuses ↔ Way.nested.Full vm₀) ∧
      (Way.nested.Full vm₀ →
        Entry.begin vm₀ (.bytecode method args) = .next ⟨vm₀, [], .raising (.stackOverflow 0)⟩)) ∧
    (∀ m, (entry.begin vm₀).Reaches (.next m) →
      m.vm.config = vm₀.config ∧ m.WithinLimits ∧
      ((∀ e, m.mode ≠ .raising e) → m.step.Refuses →
        ∃ w callee args u, m.Enters w callee args u) ∧
      ∀ w callee args u, m.Enters w callee args u →
        w.Keeps callee args m.vm u ∧
        (m.step.Refuses ↔ w.Full m.vm) ∧
        (w.Full m.vm →
          m.step = .next ⟨u, m.konts, .raising (.stackOverflow m.vm.frames.size)⟩) ∧
        (w = .inline → ∀ m', m.step = .next m' → m'.vm.loops = m.vm.loops)) ∧
    ∀ m request a, (entry.begin vm₀).Reaches (.blocked m request) → ¬ (m.resume a).Refuses := by
  have hstart : vm₀.context.Shallow := by
    have hsize : vm₀.context.frames.size = 0 := congrArg Array.size hframes
    have hzero : vm₀.context.loops = 0 := hloops
    exact ⟨by omega, by omega, by omega⟩
  refine ⟨fun method args => ⟨?_, fun hfull => ?_⟩, fun m hr => ?_,
    fun m _ a _ => m.resume_not_refuses a⟩
  · refine (Machine.continueWith_refuses ?_).trans ?_
    · exact fun _ _ _ => nofun
    · simp [Vm.enterLoop_overflows, Way.Full]
  · have hrun : Vm.enterLoop method args vm₀ = .error (.raised (.stackOverflow 0)) vm₀ :=
      Vm.enterLoop_overflows.mpr ⟨by simpa [Way.Full] using hfull, by rw [hframes]; rfl, rfl⟩
    dsimp only [Entry.begin]
    unfold Machine.continueWith
    rw [hrun]
  · have hb : Machine.Balanced vm₀.context m := (entry.begin_balanced vm₀).reaches hr
    have hshallow : m.vm.context.Shallow := (entry.begin_shallow hstart).reaches hr
    obtain ⟨hconfig, hnested⟩ := hb.konts.level
    have hnested : m.vm.loops ≤ m.vm.frames.size := hnested (by simp [Vm.context, hloops])
    have hboth : m.vm.frames.size + m.vm.loops ≤ m.vm.config.maxFrames + 2 := hshallow.both
    refine ⟨hconfig, ⟨hshallow.frames, hshallow.loops, hnested, by omega⟩,
      fun hmode h => Machine.Enters.of_refuses hmode h, fun w callee args u h => ?_⟩
    refine ⟨h.keeps, h.refused_iff hb, h.step_full hb, ?_⟩
    rintro rfl m' hm'
    exact h.inline_loops hb hm'

/-- A task with a method that calls another one, and room for one frame only. -/
def Vm.crampedCaller : Vm :=
  { Vm.nilCaller with config := { maxFrames := 1 } }

/-- There a method cannot call another one. -/
theorem depth_limited_one :
    ∃ m u, ((Entry.call ⟨0, 2, 0⟩ []).begin Vm.crampedCaller).Reaches (.next m) ∧
      m.Enters .inline ⟨0, 4, 0⟩ [] u ∧ m.WithinLimits ∧
      m.step = .next ⟨u, m.konts, .raising (.stackOverflow 1)⟩ := by
  obtain ⟨vm, vm', hrun, hcall, hsize⟩ : ∃ vm vm',
      Machine.run 2 ⟨Vm.crampedCaller, [], .calling ⟨0, 2, 0⟩ []⟩ =
        .next ⟨vm, [.loop 0 1], .running⟩ ∧
      vm.Inlines ⟨0, 4, 0⟩ [] vm' ∧ vm.frames.size = 1 :=
    ⟨_, _, rfl, ⟨⟨_, _, rfl, rfl, rfl, rfl⟩, rfl, rfl⟩, rfl⟩
  have hr := Outcome.reaches_run ⟨Vm.crampedCaller, [], .calling ⟨0, 2, 0⟩ []⟩ 2
  rw [hrun] at hr
  have henters : Machine.Enters ⟨vm, [.loop 0 1], .running⟩ .inline ⟨0, 4, 0⟩ []
      (vm'.restack (vm'.callSite []).below) := .inline rfl hcall
  obtain ⟨-, hruns, -⟩ := @depth_limited Vm.crampedCaller rfl rfl (.call ⟨0, 2, 0⟩ [])
  obtain ⟨hconfig, hlimits, -, hcalls⟩ := hruns _ hr
  obtain ⟨-, -, hrefused, -⟩ := hcalls _ _ _ _ henters
  have hfull : vm.callDepth ≥ vm.config.maxFrames := by
    rw [show vm.config.maxFrames = 1 from congrArg Config.maxFrames hconfig, Vm.callDepth, hsize]
    exact Nat.le_add_right 1 _
  have hstep := hrefused (.inr hfull)
  rw [hsize] at hstep
  exact ⟨_, _, hr, henters, hlimits, hstep⟩

end ObjectMachine
