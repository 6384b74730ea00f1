import ObjectMachine.Proofs.Machine.Balance
import ObjectMachine.Proofs.Renaming.Machines

/-!
# ObjectMachine.Proofs.Machine.CallSites

One callee on top of two callers.

A method can be called in two ways. In one the callee and the arguments are dropped and the frame of
the callee comes next; in the other they stay, and the callee has an interpreter loop of its own.
What the callee does is described on a state that holds its own frames and operands only; put on top
of the caller in either way, it does the same.

* `CallSite` — the caller, and the operands of the call.
* `CallSite.above` — the state of a callee, put on top of its caller.
* `CallSite.Agrees` — an action that does the same in both ways, unless the frames run out.
* `CallSite.Agrees.perform`, `CallSite.Replies.call` — instructions and calls.
-/

namespace ObjectMachine

open ObjectMachine.Action

/-- How a method is called. -/
inductive Way where
  /-- By a frame in the interpreter loop of the caller. -/
  | inline
  /-- By an interpreter loop. -/
  | nested

/-- The loops that a call takes. -/
def Way.loops : Way → Nat
  | .inline => 0
  | .nested => 1

structure CallSite where
  /-- The caller's frame, and the frames below it. -/
  frames : Array ActiveFrame
  /-- The operands below those of the call. -/
  below : Array Ref
  /-- The callee and the arguments. -/
  operands : Array Ref

namespace CallSite

/-- What the callee stands on. -/
def low (s : CallSite) : Way → Array Ref
  | .inline => s.below
  | .nested => s.below ++ s.operands

/-- A frame of the callee, on top of the caller. -/
def lift (s : CallSite) (w : Way) (f : ActiveFrame) : ActiveFrame :=
  f.based ((s.low w).size + f.base)

/-- The state of the callee, on top of the caller. -/
def above (s : CallSite) (w : Way) (vm : Vm) : Vm :=
  { vm with
    stack := s.low w ++ vm.stack
    frames := s.frames ++ vm.frames.map (s.lift w)
    loops := vm.loops + w.loops }

/-- The action fails because there are too many frames or loops. -/
def Overflows {α : Type} (out : EStateM.Result Stop Vm α) : Prop :=
  ∃ n vm, out = .error (.raised (.stackOverflow n)) vm

/-- The action answers as required, or it fails. -/
def Ends {α : Type} (Q : α → Vm → Prop) : EStateM.Result Stop Vm α → Prop
  | .ok x vm => Q x vm
  | .error _ _ => True

/-- In the state of the callee, the action does the same in both ways. -/
def AgreesOn {α : Type} (s : CallSite) (vm : Vm) (a : Action α) (Q : α → Vm → Prop) : Prop :=
  Overflows (a (s.above .nested vm)) ∨
    ∃ out, Ends Q out ∧ ∀ w, a (s.above w vm) = mapState (s.above w) out

/-- The same for every state in which the running frame of the callee has `k` operands. -/
def Agrees {α : Type} (s : CallSite) (k : Nat) (a : Action α) (Q : α → Vm → Prop) : Prop :=
  ∀ vm, vm.context.HasOperands k → s.AgreesOn vm a Q

variable {s : CallSite} {w : Way} {vm : Vm} {α β : Type}

/-! ## The frames of the callee -/

theorem above_frames {outer : Array ActiveFrame} {f : ActiveFrame} (h : vm.frames = outer.push f)
    (w : Way) :
    (s.above w vm).frames = (s.frames ++ outer.map (s.lift w)).push (s.lift w f) := by
  show s.frames ++ vm.frames.map (s.lift w) = _
  rw [h, Array.map_push, Array.append_push]

theorem top_above {outer : Array ActiveFrame} {f : ActiveFrame} (h : vm.frames = outer.push f)
    (w : Way) : Vm.top (s.above w vm) = .ok (s.lift w f) (s.above w vm) :=
  top_push (above_frames h w)

theorem above_size (w : Way) : (s.above w vm).frames.size = s.frames.size + vm.frames.size := by
  simp [above]

/-- The running frame is one of the callee if there are more frames than the caller has. -/
theorem hasOperands_of_above {k : Nat} (h : (s.above w vm).context.HasOperands k)
    (hsize : s.frames.size < (s.above w vm).frames.size) : vm.context.HasOperands k := by
  obtain ⟨outer, f, hframes, hheight⟩ := h
  rw [above_size] at hsize
  obtain ⟨outer', f', hown⟩ : ∃ (outer' : Array ActiveFrame) (f' : ActiveFrame),
      vm.frames = outer'.push f' := Array.exists_push_of_size_pos (by omega)
  have hlast : s.lift w f' = f := by
    have hframes : (s.above w vm).frames = outer.push f := hframes
    rw [above_frames hown, Array.push_eq_push] at hframes
    exact hframes.1
  refine ⟨outer', f', hown, ?_⟩
  have hbase : f.base = (s.low w).size + f'.base := by rw [← hlast]; rfl
  have hheight : f.base + k ≤ (s.low w ++ vm.stack).size := hheight
  rw [Array.size_append] at hheight
  show f'.base + k ≤ vm.stack.size
  omega

/-! ## Actions -/

namespace AgreesOn

theorem return_ {x : α} {Q : α → Vm → Prop} (hQ : Q x vm) : s.AgreesOn vm (pure x) Q :=
  .inr ⟨.ok x vm, hQ, fun _ => rfl⟩

theorem fatal {f : Fatal} {Q : α → Vm → Prop} : s.AgreesOn vm (Action.fatal f) Q :=
  .inr ⟨.error (.fatal f) vm, trivial, fun _ => rfl⟩

theorem imp {a : Action α} {P Q : α → Vm → Prop} (ha : s.AgreesOn vm a P)
    (hPQ : ∀ x vm', P x vm' → Q x vm') : s.AgreesOn vm a Q := by
  rcases ha with hover | ⟨out, hout, hrun⟩
  · exact .inl hover
  · refine .inr ⟨out, ?_, hrun⟩
    cases out with
    | ok x vm' => exact hPQ x vm' hout
    | error e vm' => trivial

theorem bind {a : Action α} {f : α → Action β} {P : α → Vm → Prop} {Q : β → Vm → Prop}
    (ha : s.AgreesOn vm a P) (hf : ∀ x vm', P x vm' → s.AgreesOn vm' (f x) Q) :
    s.AgreesOn vm (a >>= f) Q := by
  rcases ha with ⟨n, vm', hover⟩ | ⟨out, hout, hrun⟩
  · exact .inl ⟨n, vm', bind_error hover⟩
  · cases out with
    | error e vm' =>
      exact .inr ⟨.error e vm', trivial, fun w => bind_error (hrun w)⟩
    | ok x vm' =>
      have hnext : ∀ w, (a >>= f) (s.above w vm) = f x (s.above w vm') :=
        fun w => bind_ok (hrun w)
      rcases hf x vm' hout with ⟨n, vm'', hover⟩ | ⟨out', hout', hrun'⟩
      · exact .inl ⟨n, vm'', (hnext .nested).trans hover⟩
      · exact .inr ⟨out', hout', fun w => (hnext w).trans (hrun' w)⟩

/-- A quiet action does not know where it is done. -/
theorem quiet (a : Action α) [ha : Quiet a] :
    s.AgreesOn vm a fun _ vm' =>
      vm'.stack = vm.stack ∧ vm'.frames = vm.frames ∧ vm'.loops = vm.loops := by
  refine .inr ⟨mapState (Vm.relay ⟨vm.stack, vm.frames, vm.loops⟩) (a (s.above .inline vm)), ?_, ?_⟩
  · cases a (s.above .inline vm) with
    | ok x vm' => exact ⟨rfl, rfl, rfl⟩
    | error e vm' => trivial
  · intro w
    let l : Vm.Layout :=
      ⟨s.low w ++ vm.stack, s.frames ++ vm.frames.map (s.lift w), vm.loops + w.loops⟩
    have hfits : l.Fits (s.above .inline vm) := by
      show (s.frames ++ vm.frames.map (s.lift w)).map (·.based 0) =
        (s.frames ++ vm.frames.map (s.lift .inline)).map (·.based 0)
      simp only [Array.map_append, Array.map_map]
      rfl
    have hplace : s.above w vm = (s.above .inline vm).relay l := rfl
    rw [hplace, ha.apart (s.above .inline vm) l hfits]
    cases a (s.above .inline vm) with
    | ok x vm' => rfl
    | error e vm' => rfl

/-- A question to the heap changes nothing. -/
theorem ofHeap (f : Heap → Except Fatal α) :
    s.AgreesOn vm (Action.ofHeap f) fun x vm' => vm' = vm ∧ f vm.heap = .ok x := by
  have hrun : ∀ w, Action.ofHeap f (s.above w vm) =
      mapState (s.above w) (Action.ofHeap f vm) := by
    intro w
    have hheap : (s.above w vm).heap = vm.heap := rfl
    unfold Action.ofHeap
    rw [hheap]
    cases f vm.heap <;> rfl
  refine .inr ⟨Action.ofHeap f vm, ?_, hrun⟩
  unfold Action.ofHeap
  cases f vm.heap with
  | ok x => exact ⟨rfl, rfl⟩
  | error e => trivial

end AgreesOn

namespace Agrees

variable {k j : Nat}

theorem return_ {x : α} {Q : α → Vm → Prop} (hQ : ∀ vm, vm.context.HasOperands k → Q x vm) :
    s.Agrees k (pure x) Q :=
  fun vm hvm => .return_ (hQ vm hvm)

theorem fatal {f : Fatal} {Q : α → Vm → Prop} : s.Agrees k (Action.fatal f) Q :=
  fun _ _ => .fatal

theorem bind {a : Action α} {f : α → Action β} {Q : β → Vm → Prop}
    (ha : s.Agrees k a fun _ vm => vm.context.HasOperands j) (hf : ∀ x, s.Agrees j (f x) Q) :
    s.Agrees k (a >>= f) Q :=
  fun vm hvm => (ha vm hvm).bind hf

theorem quiet (a : Action α) [Quiet a] : s.Agrees k a fun _ vm => vm.context.HasOperands k := by
  intro vm hvm
  refine (AgreesOn.quiet a).imp fun _ vm' hlay => ?_
  obtain ⟨outer, f, hf, hheight⟩ := hvm
  have hheight : f.base + k ≤ vm.stack.size := hheight
  refine ⟨outer, f, hlay.2.1.trans hf, ?_⟩
  show f.base + k ≤ vm'.stack.size
  rw [hlay.1]
  exact hheight

theorem quiet_bind (a : Action α) [Quiet a] {f : α → Action β} {Q : β → Vm → Prop}
    (hf : ∀ x, s.Agrees k (f x) Q) : s.Agrees k (a >>= f) Q :=
  (quiet a).bind hf

/-! ## The operand stack -/

theorem push (r : Ref) : s.Agrees k (Vm.push r) fun _ vm => vm.context.HasOperands (k + 1) := by
  intro vm hvm
  obtain ⟨outer, f, hf, hheight⟩ := hvm
  refine .inr ⟨.ok () (vm.restack (vm.stack.push r)), ⟨outer, f, hf, ?_⟩, fun w => ?_⟩
  · show f.base + (k + 1) ≤ (vm.stack.push r).size
    have hheight : f.base + k ≤ vm.stack.size := hheight
    rw [Array.size_push]
    omega
  · show EStateM.Result.ok () ((s.above w vm).restack ((s.low w ++ vm.stack).push r)) = _
    rw [← Array.append_push]
    rfl

theorem need (n : Nat) : s.Agrees k (Vm.need n) fun _ vm => vm.context.HasOperands (max k n) := by
  intro vm hvm
  obtain ⟨outer, f, hf, hheight⟩ := hvm
  have hheight : f.base + k ≤ vm.stack.size := hheight
  have hrun : ∀ w, Vm.need n (s.above w vm) =
      if vm.stack.size < f.base + n then
        .error (.fatal (.stackUnderflow f.unit.name (f.ip - 1))) (s.above w vm)
      else .ok () (s.above w vm) := by
    intro w
    unfold Vm.need
    rw [bind_ok (top_above hf w)]
    show (ite ((s.low w ++ vm.stack).size < (s.low w).size + f.base + n) _ _ : Action Unit)
      (s.above w vm) = _
    rw [Array.size_append]
    by_cases hn : vm.stack.size < f.base + n
    · rw [if_pos hn, if_pos (by omega)]
      rfl
    · rw [if_neg hn, if_neg (by omega)]
      rfl
  by_cases hn : vm.stack.size < f.base + n
  · refine .inr ⟨.error (.fatal (.stackUnderflow f.unit.name (f.ip - 1))) vm, trivial, ?_⟩
    intro w
    rw [hrun, if_pos hn]
    rfl
  · refine .inr ⟨.ok () vm, ⟨outer, f, hf, ?_⟩, ?_⟩
    · show f.base + max k n ≤ vm.stack.size
      omega
    · intro w
      rw [hrun, if_neg hn]
      rfl

theorem below_run {n : Nat} (hn : n ≤ vm.stack.size) (w : Way) :
    Vm.below n (s.above w vm) = .ok ((s.low w).size + (vm.stack.size - n)) (s.above w vm) := by
  have hsize : (s.above w vm).stack.size = (s.low w).size + vm.stack.size := by simp [above]
  unfold Vm.below
  show (ite (n ≤ (s.above w vm).stack.size) _ _ : Action Nat) (s.above w vm) = _
  rw [if_pos (by omega)]
  show EStateM.Result.ok ((s.above w vm).stack.size - n) _ = _
  congr 1
  omega

theorem drop_run {n : Nat} (hn : n ≤ vm.stack.size) (w : Way) :
    Vm.drop n (s.above w vm) =
      .ok () (s.above w (vm.restack (vm.stack.shrink (vm.stack.size - n)))) := by
  unfold Vm.drop
  rw [bind_ok (below_run hn w)]
  show EStateM.Result.ok () ((s.above w vm).restack
    ((s.low w ++ vm.stack).shrink ((s.low w).size + (vm.stack.size - n)))) = _
  rw [shrink_append]
  rfl

theorem drop {n : Nat} (hn : n ≤ k) :
    s.Agrees k (Vm.drop n) fun _ vm => vm.context.HasOperands (k - n) := by
  intro vm hvm
  obtain ⟨outer, f, hf, hheight⟩ := hvm
  have hheight : f.base + k ≤ vm.stack.size := hheight
  refine .inr ⟨.ok () (vm.restack (vm.stack.shrink (vm.stack.size - n))), ⟨outer, f, hf, ?_⟩,
    fun w => drop_run (by omega) w⟩
  show f.base + (k - n) ≤ (vm.stack.shrink (vm.stack.size - n)).size
  rw [Array.size_shrink]
  omega

theorem peek (n : Nat) :
    s.Agrees k (Vm.peek n) fun _ vm => vm.context.HasOperands (max k (n + 1)) := by
  refine (need (n + 1)).bind fun _ => ?_
  intro vm hvm
  obtain ⟨outer, f, hf, hheight⟩ := hvm
  have hk : f.base + max k (n + 1) ≤ vm.stack.size := hheight
  have hlt : vm.stack.size - (n + 1) < vm.stack.size := by omega
  refine .inr ⟨.ok (vm.stack[vm.stack.size - (n + 1)]) vm, ⟨outer, f, hf, hheight⟩, fun w => ?_⟩
  have hget : (get : Action Vm) (s.above w vm) = .ok (s.above w vm) (s.above w vm) := rfl
  have hat : (s.above w vm).stack[(s.low w).size + (vm.stack.size - (n + 1))]? =
      some vm.stack[vm.stack.size - (n + 1)] :=
    (getElem?_append_size_add _ _ _).trans (Array.getElem?_eq_getElem hlt)
  rw [bind_ok (below_run (by omega) w), bind_ok hget, hat]
  rfl

theorem pop : s.Agrees k Vm.pop fun _ vm => vm.context.HasOperands (max k 1 - 1) :=
  (peek 0).bind fun r => (drop (by omega)).bind fun _ => return_ fun _ h => h

theorem peekMany (n : Nat) :
    s.Agrees k (Vm.peekMany n) fun _ vm => vm.context.HasOperands (max k n) := by
  refine (need n).bind fun _ => ?_
  intro vm hvm
  obtain ⟨outer, f, hf, hheight⟩ := hvm
  have hk : f.base + max k n ≤ vm.stack.size := hheight
  refine .inr ⟨.ok (vm.stack.extract (vm.stack.size - n) vm.stack.size).toList vm,
    ⟨outer, f, hf, hheight⟩, fun w => ?_⟩
  rw [bind_ok (below_run (by omega) w)]
  show EStateM.Result.ok ((s.low w ++ vm.stack).extract ((s.low w).size + (vm.stack.size - n))
    (s.low w ++ vm.stack).size).toList (s.above w vm) = _
  rw [extract_append]
  rfl

theorem replace {n : Nat} (hn : n ≤ k) (r : Ref) :
    s.Agrees k (Vm.replace n r) fun _ vm => vm.context.HasOperands (k - n + 1) :=
  (drop hn).bind fun _ => push r

theorem goto (addr : Nat) : s.Agrees k (Vm.goto addr) fun _ vm => vm.context.HasOperands k := by
  intro vm hvm
  obtain ⟨outer, f, hf, hheight⟩ := hvm
  refine .inr ⟨.ok () { vm with frames := outer.push { f with ip := addr } },
    ⟨outer, { f with ip := addr }, rfl, hheight⟩, fun w => ?_⟩
  have hframes := above_frames (s := s) hf w
  have hmoved : (s.above w vm).frames.modify ((s.above w vm).frames.size - 1)
      (fun f => { f with ip := addr }) =
        s.frames ++ (outer.push { f with ip := addr }).map (s.lift w) := by
    rw [hframes, Array.size_push, Nat.add_sub_cancel, modify_push, Array.map_push,
      Array.append_push]
    rfl
  have hgoto : ∀ u : Vm, Vm.goto addr u = .ok () { u with
      frames := u.frames.modify (u.frames.size - 1) fun f => { f with ip := addr } } :=
    fun _ => rfl
  rw [hgoto, hmoved]
  rfl

end Agrees

/-! ## Instructions -/

/-- Activating a method fails in both ways or in none, unless the frames run out. -/
theorem activate_agrees (method : Ref) (args : List Ref) :
    s.AgreesOn vm (Vm.activate method args) fun _ vm' =>
      vm'.stack = vm.stack ∧ vm'.frames = vm.frames ∧ vm'.loops = vm.loops := by
  have hrun : ∀ u : Vm, Vm.activate method args u =
      (if u.callDepth ≥ u.config.maxFrames then Action.raise (.stackOverflow u.frames.size)
        else Vm.prepare method args) u := by
    intro u
    rw [Vm.activate_eq]
    rfl
  have hdepth : ∀ w, (s.above w vm).callDepth =
      s.frames.size + vm.frames.size + (vm.loops + w.loops - 1) := by
    intro w
    rw [Vm.callDepth, above_size]
    rfl
  have hle : (s.above .inline vm).callDepth ≤ (s.above .nested vm).callDepth := by
    rw [hdepth, hdepth]
    simp only [Way.loops]
    omega
  have hmax : ∀ w, (s.above w vm).config.maxFrames = vm.config.maxFrames := fun _ => rfl
  by_cases hfull : (s.above .nested vm).callDepth ≥ vm.config.maxFrames
  · refine .inl ⟨(s.above .nested vm).frames.size, s.above .nested vm, ?_⟩
    rw [hrun, hmax, if_pos hfull]
    rfl
  · have hroom : ∀ w, ¬ (s.above w vm).callDepth ≥ vm.config.maxFrames := by
      intro w
      cases w with
      | nested => exact hfull
      | inline => omega
    have hprepare : s.AgreesOn vm (Vm.prepare method args) _ := AgreesOn.quiet _
    rw [AgreesOn] at hprepare ⊢
    simp only [hrun, hmax, if_neg (hroom _)]
    exact hprepare

/-- A frame that is entered stands on all operands of the callee. -/
theorem enter_agrees (method : Ref) (args : List Ref) :
    s.AgreesOn vm (Vm.enter method args) fun _ vm' => vm'.context.HasOperands 0 := by
  unfold Vm.enter
  refine (activate_agrees method args).bind fun f vm' hlay => ?_
  refine .inr ⟨.ok () { vm' with frames := vm'.frames.push { f with base := vm'.stack.size } },
    ⟨_, _, rfl, Nat.le_refl _⟩, fun w => ?_⟩
  have hframes : s.frames ++ (vm'.frames.push { f with base := vm'.stack.size }).map (s.lift w) =
      (s.above w vm').frames.push { f with base := (s.above w vm').stack.size } := by
    rw [Array.map_push, Array.append_push]
    show _ = (s.frames ++ vm'.frames.map (s.lift w)).push
      { f with base := (s.low w ++ vm'.stack).size }
    rw [Array.size_append]
    rfl
  show EStateM.Result.ok () { s.above w vm' with
    frames := (s.above w vm').frames.push { f with base := (s.above w vm').stack.size } } = _
  rw [← hframes]
  rfl

/-- What an instruction leaves: a frame that is left is still there. -/
def Flows : Flow → Vm → Prop
  | .leave _, vm => vm.context.HasOperands 0
  | _, _ => True

theorem hasOperands_mono {c : Context} {k j : Nat} (h : c.HasOperands k) (hj : j ≤ k) :
    c.HasOperands j := by
  obtain ⟨outer, f, hf, hheight⟩ := h
  exact ⟨outer, f, hf, by omega⟩

namespace Agrees

variable {k : Nat}

theorem next : s.Agrees k (pure .next) Flows :=
  return_ fun _ _ => trivial

theorem executeArith (op : Arith) : s.Agrees k (Vm.executeArith op) Flows :=
  (peek 1).bind fun a => (peek 0).bind fun b => quiet_bind _ fun v =>
    (replace (by omega) v).bind fun _ => next

theorem execute (op : Op) (i : Instr) : s.Agrees k (Vm.execute op i) Flows := by
  cases op with
  | pushConst => exact quiet_bind _ fun r => (push r).bind fun _ => next
  | pushName => exact quiet_bind _ fun name => quiet_bind _ fun r => (push r).bind fun _ => next
  | storeName => exact pop.bind fun v => quiet_bind _ fun name => quiet_bind _ fun _ => next
  | pushNil => exact quiet_bind _ fun r => (push r).bind fun _ => next
  | dup => exact (peek 0).bind fun r => (push r).bind fun _ => next
  | pop => exact pop.bind fun _ => next
  | jump => exact (goto _).bind fun _ => next
  | jumpIfTrue =>
    refine pop.bind fun v => quiet_bind _ fun b => ?_
    dsimp only
    split
    · exact (goto _).bind fun _ => next
    · exact next
  | jumpIfFalse =>
    refine pop.bind fun v => quiet_bind _ fun b => ?_
    dsimp only
    split
    · exact (goto _).bind fun _ => next
    · exact next
  | ret => exact pop.bind fun v => return_ fun _ h => hasOperands_mono h (Nat.zero_le _)
  | makeArray =>
    exact (peekMany _).bind fun items => (drop (by omega)).bind fun _ =>
      quiet_bind _ fun r => (push r).bind fun _ => next
  | makeHash =>
    exact (peekMany _).bind fun items => quiet_bind _ fun hash => quiet_bind _ fun _ =>
      (replace (by omega) hash).bind fun _ => next
  | makeClosure =>
    exact quiet_bind _ fun code => quiet_bind _ fun r => (push r).bind fun _ => next
  | getAttr =>
    exact (peek 0).bind fun obj => quiet_bind _ fun name => quiet_bind _ fun v =>
      (replace (by omega) v).bind fun _ => next
  | getItem =>
    exact (peek 1).bind fun obj => (peek 0).bind fun key => quiet_bind _ fun v =>
      (replace (by omega) v).bind fun _ => next
  | call =>
    refine (peekMany _).bind fun operands => ?_
    cases operands with
    | nil => exact fatal
    | cons callee args =>
      refine quiet_bind _ fun b => ?_
      split
      · exact (drop (by omega)).bind fun _ vm _ =>
          (enter_agrees callee args).bind fun _ vm' _ => .return_ trivial
      · exact return_ fun _ _ => trivial
  | getClass => exact pop.bind fun v => quiet_bind _ fun r => (push r).bind fun _ => next
  | add => exact executeArith .add
  | sub => exact executeArith .sub
  | mul => exact executeArith .mul
  | div => exact executeArith .div
  | eq =>
    exact pop.bind fun b => pop.bind fun a => quiet_bind _ fun e => quiet_bind _ fun r =>
      (push r).bind fun _ => next
  | neq =>
    exact pop.bind fun b => pop.bind fun a => quiet_bind _ fun e => quiet_bind _ fun r =>
      (push r).bind fun _ => next
  | gt | gte | lt | lte =>
    exact (peek 1).bind fun a => (peek 0).bind fun b => quiet_bind _ fun o =>
      quiet_bind _ fun v => (replace (by omega) v).bind fun _ => next
  | not =>
    exact pop.bind fun v => quiet_bind _ fun b => quiet_bind _ fun r => (push r).bind fun _ => next
  | spawn =>
    exact (peek 0).bind fun callable => quiet_bind _ fun request =>
      return_ fun _ _ => trivial

/-- The running frame, wherever it stands. -/
theorem top_bind {f : ActiveFrame → Action α} {Q : α → Vm → Prop}
    (hf : ∀ g b, f (g.based b) = f g) (h : ∀ g, s.Agrees k (f g) Q) :
    s.Agrees k (Vm.top >>= f) Q := by
  intro vm hvm
  obtain ⟨outer, g, hg, hheight⟩ := hvm
  have hrun : ∀ w, (Vm.top >>= f) (s.above w vm) = f g (s.above w vm) := by
    intro w
    rw [bind_ok (top_above hg w)]
    exact congrFun (hf g _) _
  rw [AgreesOn]
  simp only [hrun]
  exact h g vm ⟨outer, g, hg, hheight⟩

theorem fetch : s.Agrees k Vm.fetch fun _ vm => vm.context.HasOperands k := by
  unfold Vm.fetch
  refine top_bind (fun _ _ => rfl) fun f => ?_
  split
  · exact return_ fun _ h => h
  · exact (goto _).bind fun _ => return_ fun _ h => h

theorem perform : s.Agrees k Vm.perform Flows := by
  unfold Vm.perform
  refine fetch.bind fun next => ?_
  cases next with
  | none => exact quiet_bind _ fun v => return_ fun _ h => hasOperands_mono h (Nat.zero_le k)
  | some i =>
    dsimp only
    split
    · exact execute _ i
    · exact top_bind (fun _ _ => rfl) fun f => fatal

end Agrees

/-- Leaving the running frame. -/
theorem leaveFrame_agrees {outer : Array ActiveFrame} {f : ActiveFrame}
    (h : vm.frames = outer.push f) :
    s.AgreesOn vm Vm.leaveFrame fun _ vm' =>
      vm'.stack = vm.stack.shrink f.base ∧ vm'.frames = outer ∧ vm'.loops = vm.loops := by
  let left : Vm := { vm with frames := outer, stack := vm.stack.shrink f.base }
  let text := fun _ : Vm => s!"leave {f.unit.name}"
  have hrun : ∀ w, Vm.leaveFrame (s.above w vm) =
      Vm.trace Channels.vm "vm" text (s.above w left) := by
    intro w
    have hleft : s.above w left = { s.above w vm with
        frames := (s.above w vm).frames.pop
        stack := (s.above w vm).stack.shrink (s.lift w f).base } := by
      rw [above_frames h, Array.pop_push]
      show { s.above w vm with
        frames := s.frames ++ outer.map (s.lift w)
        stack := s.low w ++ vm.stack.shrink f.base } = _
      rw [← shrink_append]
      rfl
    unfold Vm.leaveFrame
    rw [bind_ok (top_above h w), hleft]
    rfl
  rw [AgreesOn]
  simp only [hrun]
  exact (AgreesOn.quiet _ : s.AgreesOn left (Vm.trace Channels.vm "vm" text) _)

end CallSite

/-! ## Calls -/

namespace Quiet

instance constructObject (cls : Ref) (args : List Ref) : Quiet (Vm.constructObject cls args) := by
  unfold Vm.constructObject
  refine @bind _ _ _ _ _ fun c => ?_
  dsimp only
  split
  · infer_instance
  · refine @bind _ _ _ _ _ fun nothing => @bind _ _ _ _ _ fun obj => @bind _ _ _ _ _ fun found => ?_
    cases found with
    | some init => infer_instance
    | none =>
      dsimp only
      split <;> infer_instance

instance runInit (f : InitFn) (cls : Ref) (args : List Ref) : Quiet (Vm.runInit f cls args) := by
  unfold Vm.runInit
  split <;> first
    | infer_instance
    | (refine @bind _ _ _ _ _ fun p => ?_
       cases p <;> infer_instance)

instance construct (cls : Ref) (args : List Ref) : Quiet (Vm.construct cls args) := by
  unfold Vm.construct; infer_instance

/-- Of the native functions, only the one that collects looks at the operand stack. -/
theorem runNative {f : Native} (hf : f ≠ .collect) (args : List Ref) :
    Quiet (Vm.runNative f args) := by
  unfold Vm.runNative
  split
  -- by their places: an error is made, a collection, the depth, the backtrace, and the slots of an
  -- object; the others are plain sequences of quiet actions
  case h_6 => exact get_bind (fun _ _ _ => rfl) inferInstance
  case h_8 => exact absurd rfl hf
  case h_30 =>
    exact get_bind (fun _ _ hl => by rw [Vm.depth, Vm.depth, ← hl.size]; rfl) inferInstance
  case h_31 => exact get_bind (fun _ _ hl => by rw [hl.backtrace]) inferInstance
  case h_32 =>
    refine @bind _ _ _ _ _ fun p => ?_
    cases p with
    | int n =>
      refine @bind _ _ _ _ _ fun found => ?_
      cases found <;> infer_instance
    | _ => infer_instance
  case h_33 =>
    refine @bind _ _ _ _ _ fun p => ?_
    cases p with
    | int n =>
      refine @bind _ _ _ _ _ fun done => ?_
      split <;> infer_instance
    | _ => infer_instance
  all_goals infer_instance

end Quiet

/-- The reply to a call, on top of the caller: a frame that was pushed stands higher. -/
def Reply.above (s : CallSite) (w : Way) : Reply → Reply
  | .entered floor base => .entered (s.frames.size + floor) ((s.low w).size + base)
  | reply => reply

theorem Reply.above_of_ne {s : CallSite} {w : Way} {reply : Reply}
    (h : ∀ floor base, reply ≠ .entered floor base) : reply.above s w = reply := by
  cases reply with
  | entered floor base => exact absurd rfl (h floor base)
  | _ => rfl

namespace CallSite

variable {s : CallSite} {vm : Vm} {α : Type}

/-- The same for an action that replies to a call. -/
def Replies (s : CallSite) (vm : Vm) (a : Action Reply) : Prop :=
  Overflows (a (s.above .nested vm)) ∨
    (∃ e vm', ∀ w, a (s.above w vm) = .error e (s.above w vm')) ∨
    ∃ (reply : Reply) (vm' : Vm), ∀ w, a (s.above w vm) = .ok (reply.above s w) (s.above w vm')

namespace Replies

theorem bind {a : Action α} {f : α → Action Reply} {P : α → Vm → Prop} (ha : s.AgreesOn vm a P)
    (hf : ∀ x vm', P x vm' → s.Replies vm' (f x)) : s.Replies vm (a >>= f) := by
  rcases ha with ⟨n, vm', hover⟩ | ⟨out, hout, hrun⟩
  · exact .inl ⟨n, vm', bind_error hover⟩
  · cases out with
    | error e vm' => exact .inr (.inl ⟨e, vm', fun w => bind_error (hrun w)⟩)
    | ok x vm' =>
      have hnext : ∀ w, (a >>= f) (s.above w vm) = f x (s.above w vm') :=
        fun w => bind_ok (hrun w)
      rcases hf x vm' hout with ⟨n, vm'', hover⟩ | ⟨e, vm'', hrun'⟩ | ⟨reply, vm'', hrun'⟩
      · exact .inl ⟨n, vm'', (hnext .nested).trans hover⟩
      · exact .inr (.inl ⟨e, vm'', fun w => (hnext w).trans (hrun' w)⟩)
      · exact .inr (.inr ⟨reply, vm'', fun w => (hnext w).trans (hrun' w)⟩)

/-- An action that pushes no frame replies the same. -/
theorem settled (a : Action Reply) [Quiet a] [hs : Settled a] : s.Replies vm a := by
  rcases (AgreesOn.quiet a : s.AgreesOn vm a _) with hover | ⟨out, -, hrun⟩
  · exact .inl hover
  · cases out with
    | error e vm' => exact .inr (.inl ⟨e, vm', hrun⟩)
    | ok reply vm' =>
      refine .inr (.inr ⟨reply, vm', fun w => ?_⟩)
      rw [Reply.above_of_ne, hrun w]
      · rfl
      · rintro floor base rfl
        exact hs.not_entered _ _ floor base (hrun w)

theorem enterLoop (method : Ref) (args : List Ref) :
    s.Replies vm (do
      let (floor, base) ← Vm.enterLoop method args
      return .entered floor base) := by
  have hloops : (s.above .inline vm).loops ≤ (s.above .nested vm).loops := by
    show vm.loops + 0 ≤ vm.loops + 1
    omega
  by_cases hfull : (s.above .nested vm).loops ≥ vm.config.maxNativeDepth
  · refine .inl ⟨(s.above .nested vm).frames.size, s.above .nested vm, bind_error ?_⟩
    rw [Vm.enterLoop_run]
    exact if_pos hfull
  · have hroom : ∀ w, ¬ (s.above w vm).loops ≥ (s.above w vm).config.maxNativeDepth := by
      intro w
      cases w with
      | nested => exact hfull
      | inline =>
        show ¬ (s.above .inline vm).loops ≥ vm.config.maxNativeDepth
        omega
    have hrun : ∀ w, Vm.enterLoop method args (s.above w vm) = (do
        Vm.enter method args
        modify fun vm : Vm => { vm with loops := vm.loops + 1 }
        return ((s.above w vm).frames.size, (s.above w vm).stack.size) : Action (Nat × Nat))
          (s.above w vm) := by
      intro w
      rw [Vm.enterLoop_run, if_neg (hroom w)]
    have hagrees : s.AgreesOn vm (Vm.enter method args) _ := enter_agrees method args
    rcases hagrees with ⟨n, vm', hover⟩ | ⟨out, -, henter⟩
    · exact .inl ⟨n, vm', bind_error ((hrun .nested).trans (bind_error hover))⟩
    · cases out with
      | error e vm' =>
        exact .inr (.inl ⟨e, vm', fun w => bind_error ((hrun w).trans (bind_error (henter w)))⟩)
      | ok _ vm' =>
        refine .inr (.inr ⟨.entered vm.frames.size vm.stack.size,
          { vm' with loops := vm'.loops + 1 }, fun w => ?_⟩)
        have hheights : ((s.above w vm).frames.size, (s.above w vm).stack.size) =
            (s.frames.size + vm.frames.size, (s.low w).size + vm.stack.size) := by
          rw [above_size]
          simp [above]
        have hcounted : { s.above w vm' with loops := (s.above w vm').loops + 1 } =
            s.above w { vm' with loops := vm'.loops + 1 } := by
          show { s.above w vm' with loops := vm'.loops + w.loops + 1 } =
            { s.above w vm' with loops := vm'.loops + 1 + w.loops }
          rw [Nat.add_right_comm]
        have hdone : Vm.enterLoop method args (s.above w vm) =
            .ok (s.frames.size + vm.frames.size, (s.low w).size + vm.stack.size)
              (s.above w { vm' with loops := vm'.loops + 1 }) := by
          rw [hrun w, bind_ok (henter w), hheights, ← hcounted]
          rfl
        rw [bind_ok hdone]
        rfl

theorem callMethod {method : Ref} (hne : ¬ vm.heap.IsCollect method) (args : List Ref) :
    s.Replies vm (Vm.callMethod method args) := by
  unfold Vm.callMethod
  refine bind (AgreesOn.ofHeap fun h => h.payload method) fun p vm' hp => ?_
  obtain ⟨rfl, hp⟩ := hp
  cases p with
  | method m =>
    dsimp only
    split
    · rename_i f hf
      have hcollect : f ≠ .collect := by
        rintro rfl
        obtain ⟨k, hget⟩ := Heap.payload_eq_ok hp
        exact hne ⟨k, m, hget, hf⟩
      have := Quiet.runNative hcollect (m.receiver.toList ++ args)
      exact settled _
    · exact enterLoop method args
  | _ => exact settled _

/-- A call replies in both ways, unless it asks for a collection. -/
theorem call {callee : Ref} (hne : ¬ vm.heap.IsCollect callee) (args : List Ref) :
    s.Replies vm (Vm.call callee args) := by
  unfold Vm.call
  refine bind (AgreesOn.ofHeap _) fun f vm' hf => ?_
  obtain ⟨rfl, -⟩ := hf
  cases f with
  | method => exact callMethod hne args
  | cls => exact settled _
  | arguments => exact settled _

end Replies
end CallSite
end ObjectMachine
