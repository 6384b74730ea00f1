import ObjectMachine.Proofs.Vm.Quiet.Calls

/-!
# ObjectMachine.Proofs.Machine.Isolation

An instruction works on the operands of its own frame.

The operands below the base of the running frame belong to its callers. What an instruction does is
described on a state that holds the operands of the running frame only; put on top of any operands
of the callers, it does the same, and these stay.

* `Vm.onto` — a state on top of some operands.
* `Isolated` — an action that is a function of the operands of the running frame.
* `Isolated.execute` — every instruction is one.
-/

namespace ObjectMachine

open ObjectMachine.Action

instance Blind.top : Blind Vm.top := by
  unfold Vm.top
  refine get_bind (fun _ _ => rfl) fun vm => ?_
  split
  · infer_instance
  · exact @quiet _ _ (Quiet.fatal nofun)

namespace Quiet

/-! ## Names -/

/-- What is done with the running frame, wherever it stands. -/
theorem top_bind {α : Type} {f : ActiveFrame → Action α} (hf : ∀ g b, f (g.based b) = f g)
    (h : ∀ g, Quiet (f g)) : Quiet (Vm.top >>= f) where
  toSteady := inferInstance
  apart vm l hl := by
    have hback : l.frames.back?.map (·.based 0) = vm.frames.back?.map (·.based 0) := by
      rw [← Array.back?_map, ← Array.back?_map, hl]
    have hrun : ∀ vm : Vm, (Vm.top >>= f) vm =
        vm.frames.back?.elim (.error (.fatal .noActiveFrame) vm) fun g => f g vm := by
      intro vm
      have hget : (get : Action Vm) vm = .ok vm vm := rfl
      rw [bind_run, Vm.top, bind_ok hget]
      cases vm.frames.back? <;> rfl
    have hframes : (vm.relay l).frames = l.frames := rfl
    rw [hrun, hrun, hframes]
    cases hg : vm.frames.back? with
    | none =>
      rw [hg] at hback
      rw [Option.map_eq_none_iff.mp hback]
      rfl
    | some g =>
      rw [hg] at hback
      obtain ⟨g', hg', heq⟩ := Option.map_eq_some_iff.mp hback
      have hsame : f g' = f g := by rw [← hf g' 0, heq, hf g 0]
      rw [hg', Option.elim_some, hsame]
      exact (h g).apart vm l hl

instance constant (index : UInt8) : Quiet (Vm.constant index) := by
  unfold Vm.constant
  refine top_bind (fun _ _ => rfl) fun f => @bind _ _ _ _ _ fun p => ?_
  cases p with
  | code c =>
    dsimp only
    split
    · infer_instance
    · exact fatal nofun
  | _ => exact fatal nofun

instance nameAt (index : UInt8) : Quiet (Vm.nameAt index) := by
  unfold Vm.nameAt
  refine top_bind (fun _ _ => rfl) fun f => ?_
  split
  · infer_instance
  · exact fatal nofun

instance frameVar? (frame : Ref) (name : String) : Quiet (Vm.frameVar? frame name) := by
  unfold Vm.frameVar?
  refine @bind _ _ _ _ _ fun p => ?_
  cases p <;> infer_instance

instance moduleVar? (module : Option Ref) (name : String) : Quiet (Vm.moduleVar? module name) := by
  unfold Vm.moduleVar?
  cases module with
  | none => infer_instance
  | some m =>
    refine @bind _ _ _ _ _ fun p => ?_
    cases p <;> infer_instance

instance scopedVar? (name : String) : Quiet (Vm.scopedVar? name) := by
  unfold Vm.scopedVar?
  refine top_bind (fun _ _ => rfl) fun f => @bind _ _ _ _ _ fun own => ?_
  cases own <;> infer_instance

instance loadName (name : String) : Quiet (Vm.loadName name) := by
  unfold Vm.loadName
  refine @bind _ _ _ _ _ fun found => ?_
  cases found with
  | some var =>
    refine @bind _ _ _ _ _ fun v => ?_
    cases v <;> infer_instance
  | none =>
    refine get_bind (fun _ _ _ => rfl) fun vm => ?_
    split
    · infer_instance
    · split <;> infer_instance

instance storeName (name : String) (value : Ref) : Quiet (Vm.storeName name value) := by
  unfold Vm.storeName
  refine @bind _ _ _ _ _ fun found => ?_
  cases found with
  | some var => infer_instance
  | none =>
    refine top_bind (fun _ _ => rfl) fun f => ?_
    split <;> infer_instance

instance captureVars (names : List String) (vars : NameMap Ref) :
    Quiet (Vm.captureVars names vars) := by
  induction names generalizing vars with
  | nil => exact return_ vars
  | cons name rest ih =>
    unfold Vm.captureVars
    refine @bind _ _ _ _ _ fun found => ?_
    cases found <;> infer_instance

instance makeClosure (code : Ref) : Quiet (Vm.makeClosure code) := by
  unfold Vm.makeClosure
  refine @bind _ _ _ _ _ fun unit => top_bind (fun _ _ => rfl) fun f => ?_
  infer_instance

instance fillHash (hash : Ref) (items : List Ref) : Quiet (Vm.fillHash hash items) := by
  fun_induction Vm.fillHash hash items with
  | case1 => infer_instance
  | case2 => infer_instance

end Quiet

/-! ## The operands of a frame -/

/-- The state on top of some operands. -/
def Vm.onto (low : Array Ref) (vm : Vm) : Vm :=
  { vm with stack := low ++ vm.stack }

/-- A frame that is running, and where: the frames below it, and the rest of the interpreter's
state. The address at which the frame stands does not count. -/
structure Place where
  context : Context
  outer : Array ActiveFrame
  frame : ActiveFrame

/-- The state has the place's frame on top and at least `k` operands for it. -/
structure Place.Holds (p : Place) (k : Nat) (vm : Vm) : Prop where
  frames : ∃ ip, vm.frames = p.outer.push { p.frame with ip := ip }
  context : vm.context = { p.context with stack := vm.stack, frames := vm.frames }
  height : k ≤ vm.stack.size

/-- How an action ends at a place: with a value and a state as required, or with a failure that
leaves the place and is not about the operand stack. -/
def Place.Ends {α : Type} (p : Place) (Q : α → Vm → Prop) : EStateM.Result Stop Vm α → Prop
  | .ok x vm => Q x vm
  | .error e vm => p.Holds 0 vm ∧ ∀ n height, e ≠ .fatal (.operandRange n height)

/-- Given `k` operands for the running frame, the action is a function of the frame's operands. The
ones below stay, and so it is the same function on top of any others. -/
def Isolated {α : Type} (p : Place) (k : Nat) (a : Action α) (Q : α → Vm → Prop) : Prop :=
  ∀ vm, p.Holds k vm → ∃ out : EStateM.Result Stop Vm α, p.Ends Q out ∧
    ∀ low, low.size = p.frame.base → a (vm.onto low) = mapState (Vm.onto low) out

theorem top_push {vm : Vm} {outer : Array ActiveFrame} {f : ActiveFrame}
    (h : vm.frames = outer.push f) : Vm.top vm = .ok f vm := by
  have hb : vm.frames.back? = some f := by rw [h, Array.back?_push]
  have hget : (get : Action Vm) vm = .ok vm vm := rfl
  unfold Vm.top
  rw [bind_ok hget, hb]
  rfl

namespace Place.Holds

variable {p : Place} {k : Nat} {vm vm' : Vm}

theorem weaken {j : Nat} (h : p.Holds k vm) (hj : j ≤ k) : p.Holds j vm :=
  ⟨h.frames, h.context, Nat.le_trans hj h.height⟩

theorem of_context (h : p.Holds k vm) (hctx : vm'.context = vm.context) : p.Holds k vm' := by
  have hs : vm'.stack = vm.stack := congrArg Context.stack hctx
  have hf : vm'.frames = vm.frames := congrArg Context.frames hctx
  exact ⟨hf ▸ h.frames, by rw [hctx, hs, hf]; exact h.context, hs ▸ h.height⟩

/-- Other operands, as many as are asked for. -/
theorem restack {j : Nat} (h : p.Holds k vm) {s : Array Ref} (hs : j ≤ s.size) :
    p.Holds j (vm.restack s) :=
  ⟨h.frames, by rw [Vm.restack_context, h.context]; rfl, hs⟩

end Place.Holds

section Append

variable {α : Type} (low s : Array α) (n : Nat)

theorem shrink_append : (low ++ s).shrink (low.size + n) = low ++ s.shrink n := by
  apply Array.ext'
  simp

theorem extract_append :
    (low ++ s).extract (low.size + n) (low ++ s).size = s.extract n s.size := by
  apply Array.ext'
  simp [List.extract_eq_take_drop, Nat.add_sub_add_left, List.drop_eq_nil_of_le]

theorem getElem?_append_size_add : (low ++ s)[low.size + n]? = s[n]? := by
  simp [Array.getElem?_append_right]

theorem modify_push (a : α) (f : α → α) : (s.push a).modify s.size f = s.push (f a) := by
  apply Array.ext
  · simp
  · intro i hi hi'
    rw [Array.size_push] at hi'
    simp only [Array.getElem_modify, Array.getElem_push]
    split <;> split <;> first | rfl | omega

end Append

namespace Isolated

variable {α β : Type} {p : Place} {k j : Nat}

theorem return_ {x : α} {Q : α → Vm → Prop} (hQ : ∀ vm, p.Holds k vm → Q x vm) :
    Isolated p k (pure x) Q :=
  fun vm hvm => ⟨.ok x vm, hQ vm hvm, fun _ _ => rfl⟩

theorem fails {f : Fatal} {Q : α → Vm → Prop} (hf : ∀ n height, f ≠ .operandRange n height) :
    Isolated p k (Action.fatal f) Q :=
  fun vm hvm => ⟨.error (.fatal f) vm,
    ⟨hvm.weaken (Nat.zero_le k), fun n height h => hf n height (Stop.fatal.inj h)⟩, fun _ _ => rfl⟩

theorem bind {a : Action α} {f : α → Action β} {Q : β → Vm → Prop}
    (ha : Isolated p k a fun _ => p.Holds j) (hf : ∀ x, Isolated p j (f x) Q) :
    Isolated p k (a >>= f) Q := by
  intro vm hvm
  obtain ⟨out, hout, hrun⟩ := ha vm hvm
  cases out with
  | ok x vm' =>
    obtain ⟨out', hout', hrun'⟩ := hf x vm' hout
    exact ⟨out', hout', fun low hlow => (bind_ok (hrun low hlow)).trans (hrun' low hlow)⟩
  | error e vm' =>
    exact ⟨.error e vm', hout, fun low hlow => bind_error (hrun low hlow)⟩

/-- A quiet action does not know of operands at all. -/
theorem quiet (a : Action α) [Blind a] : Isolated p k a fun _ => p.Holds k := by
  intro vm hvm
  refine ⟨a vm, ?_, fun low _ => ?_⟩
  · rcases Steady.cases a vm with ⟨e, vm', h, hctx, he⟩ | ⟨x, vm', h, hctx⟩
    · rw [h]
      exact ⟨(hvm.of_context hctx).weaken (Nat.zero_le k), he⟩
    · rw [h]
      exact hvm.of_context hctx
  · have hblind := Blind.blind (a := a) vm (low ++ vm.stack)
    have hctx := Steady.context (a := a) vm
    show a (vm.restack (low ++ vm.stack)) = _
    rw [hblind]
    cases h : a vm with
    | ok x vm' =>
      rw [h] at hctx
      have hs : vm'.stack = vm.stack := congrArg Context.stack hctx
      simp [mapState, Vm.restack, Vm.onto, hs]
    | error e vm' =>
      rw [h] at hctx
      have hs : vm'.stack = vm.stack := congrArg Context.stack hctx
      simp [mapState, Vm.restack, Vm.onto, hs]

theorem quiet_bind (a : Action α) [Blind a] {f : α → Action β} {Q : β → Vm → Prop}
    (hf : ∀ x, Isolated p k (f x) Q) : Isolated p k (a >>= f) Q :=
  (quiet a).bind hf

/-! ## The operand stack -/

theorem push (r : Ref) : Isolated p k (Vm.push r) fun _ => p.Holds (k + 1) := by
  intro vm hvm
  refine ⟨.ok () (vm.restack (vm.stack.push r)), hvm.restack ?_, fun low _ => ?_⟩
  · simpa using hvm.height
  · show EStateM.Result.ok () _ = _
    simp [mapState, Vm.restack, Vm.onto]

/-- What is not there is refused before it is looked for. -/
theorem need (n : Nat) : Isolated p k (Vm.need n) fun _ => p.Holds (max k n) := by
  intro vm hvm
  obtain ⟨ip, hframes⟩ := hvm.frames
  have hrun : ∀ low, low.size = p.frame.base → Vm.need n (vm.onto low) =
      if vm.stack.size < n then
        .error (.fatal (.stackUnderflow p.frame.unit.name (ip - 1))) (vm.onto low)
      else .ok () (vm.onto low) := by
    intro low hlow
    have htop : Vm.top (vm.onto low) = .ok { p.frame with ip := ip } (vm.onto low) :=
      top_push hframes
    unfold Vm.need
    rw [bind_ok htop]
    show (ite ((low ++ vm.stack).size < p.frame.base + n) _ _ : Action Unit) (vm.onto low) = _
    rw [Array.size_append, hlow]
    by_cases hn : vm.stack.size < n
    · rw [if_pos hn, if_pos (by omega)]; rfl
    · rw [if_neg hn, if_neg (by omega)]; rfl
  by_cases hn : vm.stack.size < n
  · refine ⟨.error (.fatal (.stackUnderflow p.frame.unit.name (ip - 1))) vm,
      ⟨hvm.weaken (Nat.zero_le k), nofun⟩, fun low hlow => ?_⟩
    rw [hrun low hlow, if_pos hn]
    rfl
  · refine ⟨.ok () vm, ⟨hvm.frames, hvm.context, ?_⟩, fun low hlow => ?_⟩
    · have := hvm.height
      omega
    · rw [hrun low hlow, if_neg hn]
      rfl

/-- The height below operands that are there, seen from the operands of the frame. -/
theorem below_run {n : Nat} {vm : Vm} (hn : n ≤ vm.stack.size) (low : Array Ref) :
    Vm.below n (vm.onto low) = .ok (low.size + (vm.stack.size - n)) (vm.onto low) := by
  have hsize : (vm.onto low).stack.size = low.size + vm.stack.size := by simp [Vm.onto]
  unfold Vm.below
  show (ite (n ≤ (vm.onto low).stack.size) _ _ : Action Nat) (vm.onto low) = _
  rw [if_pos (by omega)]
  show EStateM.Result.ok ((vm.onto low).stack.size - n) _ = _
  congr 1
  omega

theorem drop {n : Nat} (hn : n ≤ k) : Isolated p k (Vm.drop n) fun _ => p.Holds (k - n) := by
  intro vm hvm
  have hk := hvm.height
  refine ⟨.ok () (vm.restack (vm.stack.shrink (vm.stack.size - n))), hvm.restack ?_,
    fun low _ => ?_⟩
  · rw [Array.size_shrink]
    omega
  · unfold Vm.drop
    rw [bind_ok (below_run (Nat.le_trans hn hk) low)]
    show EStateM.Result.ok () ((vm.onto low).restack
      ((low ++ vm.stack).shrink (low.size + (vm.stack.size - n)))) = _
    rw [shrink_append]
    rfl

theorem peek (n : Nat) : Isolated p k (Vm.peek n) fun _ => p.Holds (max k (n + 1)) := by
  refine (need (n + 1)).bind fun _ => ?_
  intro vm hvm
  have hk := hvm.height
  have hlt : vm.stack.size - (n + 1) < vm.stack.size := by omega
  refine ⟨.ok (vm.stack[vm.stack.size - (n + 1)]) vm, hvm, fun low _ => ?_⟩
  have hget : (get : Action Vm) (vm.onto low) = .ok (vm.onto low) (vm.onto low) := rfl
  have hat : (vm.onto low).stack[low.size + (vm.stack.size - (n + 1))]? =
      some vm.stack[vm.stack.size - (n + 1)] :=
    (getElem?_append_size_add _ _ _).trans (Array.getElem?_eq_getElem hlt)
  rw [bind_ok (below_run (by omega) low), bind_ok hget, hat]
  rfl

theorem pop : Isolated p k Vm.pop fun _ => p.Holds (max k 1 - 1) := by
  refine (peek 0).bind fun r => (drop (by omega)).bind fun _ => return_ fun _ h => h

theorem peekMany (n : Nat) : Isolated p k (Vm.peekMany n) fun _ => p.Holds (max k n) := by
  refine (need n).bind fun _ => ?_
  intro vm hvm
  have hk := hvm.height
  refine ⟨.ok (vm.stack.extract (vm.stack.size - n) vm.stack.size).toList vm, hvm, fun low _ => ?_⟩
  rw [bind_ok (below_run (by omega) low)]
  show EStateM.Result.ok ((low ++ vm.stack).extract (low.size + (vm.stack.size - n))
    (low ++ vm.stack).size).toList (vm.onto low) = _
  rw [extract_append]
  rfl

theorem replace {n : Nat} (hn : n ≤ k) (r : Ref) :
    Isolated p k (Vm.replace n r) fun _ => p.Holds (k - n + 1) :=
  (drop hn).bind fun _ => push r

theorem goto (addr : Nat) : Isolated p k (Vm.goto addr) fun _ => p.Holds k := by
  intro vm hvm
  obtain ⟨ip, hf⟩ := hvm.frames
  refine ⟨Vm.goto addr vm, ⟨⟨addr, ?_⟩, ?_, hvm.height⟩, fun _ _ => rfl⟩
  · dsimp only
    rw [hf, Array.size_push, Nat.add_sub_cancel, modify_push]
  · have hctx := hvm.context
    rw [Context.ext_iff] at hctx ⊢
    exact ⟨rfl, rfl, hctx.2.2⟩

end Isolated

/-! ## Instructions -/

/-- The place's frame has called another one, which stands on top of all operands. -/
structure Place.Entered (p : Place) (vm : Vm) : Prop where
  frames : ∃ ip g, vm.frames = (p.outer.push { p.frame with ip := ip }).push g ∧
    g.base = p.frame.base + vm.stack.size
  context : vm.context = { p.context with stack := vm.stack, frames := vm.frames }

/-- How an instruction leaves its place. -/
inductive Place.Flows (p : Place) : Flow → Vm → Prop where
  | next {vm : Vm} : p.Holds 0 vm → p.Flows .next vm
  | entered {vm : Vm} : p.Entered vm → p.Flows .next vm
  | leave {vm : Vm} {v : Ref} : p.Holds 0 vm → p.Flows (.leave v) vm
  | call {vm : Vm} {callee : Ref} {args : List Ref} {n : Nat} :
      p.Holds n vm → p.Flows (.call callee args n) vm
  | wait {vm : Vm} {request : Request} {n : Nat} : p.Holds n vm → p.Flows (.wait request n) vm

namespace Isolated

variable {p : Place} {k : Nat}

theorem next : Isolated p k (pure .next) p.Flows :=
  return_ fun _ h => .next (h.weaken (Nat.zero_le k))

/-- A frame that is entered stands on all operands of the one that called it. -/
theorem enter (method : Ref) (args : List Ref) :
    Isolated p k (do Vm.enter method args; return .next) p.Flows := by
  unfold Vm.enter
  rw [bind_assoc]
  refine quiet_bind _ fun g => ?_
  intro vm hvm
  obtain ⟨ip, hf⟩ := hvm.frames
  have hctx := hvm.context
  let vm' : Vm :=
    { vm with frames := vm.frames.push { g with base := p.frame.base + vm.stack.size } }
  refine ⟨.ok .next vm', .entered ⟨⟨ip, { g with base := p.frame.base + vm.stack.size }, ?_, rfl⟩, ?_⟩,
    fun low hlow => ?_⟩
  · show vm.frames.push _ = _
    rw [hf]
  · rw [Context.ext_iff] at hctx ⊢
    exact ⟨rfl, rfl, hctx.2.2⟩
  · show EStateM.Result.ok Flow.next
      { vm.onto low with frames := vm.frames.push { g with base := (low ++ vm.stack).size } } = _
    rw [Array.size_append, hlow]
    rfl

theorem executeArith (op : Arith) : Isolated p k (Vm.executeArith op) p.Flows :=
  (peek 1).bind fun a => (peek 0).bind fun b => quiet_bind _ fun v =>
    (replace (by omega) v).bind fun _ => next

theorem execute (op : Op) (i : Instr) : Isolated p k (Vm.execute op i) p.Flows := by
  cases op with
  | pushConst => exact quiet_bind _ fun r => (push r).bind fun _ => next
  | pushName => exact quiet_bind _ fun name => quiet_bind _ fun r => (push r).bind fun _ => next
  | storeName => exact pop.bind fun v => quiet_bind _ fun name => quiet_bind _ fun _ => next
  | pushNil => exact quiet_bind _ fun r => (push r).bind fun _ => next
  | dup => exact (peek 0).bind fun r => (push r).bind fun _ => next
  | pop => exact pop.bind fun _ => next
  | jump => exact (goto _).bind fun _ => next
  | jumpIfTrue =>
    refine pop.bind fun v => quiet_bind _ fun b => ?_
    dsimp only
    split
    · exact (goto _).bind fun _ => next
    · exact next
  | jumpIfFalse =>
    refine pop.bind fun v => quiet_bind _ fun b => ?_
    dsimp only
    split
    · exact (goto _).bind fun _ => next
    · exact next
  | ret => exact pop.bind fun v => return_ fun _ h => .leave (h.weaken (Nat.zero_le _))
  | makeArray =>
    exact (peekMany _).bind fun items => (drop (by omega)).bind fun _ =>
      quiet_bind _ fun r => (push r).bind fun _ => next
  | makeHash =>
    exact (peekMany _).bind fun items => quiet_bind _ fun hash => quiet_bind _ fun _ =>
      (replace (by omega) hash).bind fun _ => next
  | makeClosure =>
    exact quiet_bind _ fun code => quiet_bind _ fun r => (push r).bind fun _ => next
  | getAttr =>
    exact (peek 0).bind fun obj => quiet_bind _ fun name => quiet_bind _ fun v =>
      (replace (by omega) v).bind fun _ => next
  | getItem =>
    exact (peek 1).bind fun obj => (peek 0).bind fun key => quiet_bind _ fun v =>
      (replace (by omega) v).bind fun _ => next
  | call =>
    refine (peekMany _).bind fun operands => ?_
    cases operands with
    | nil => exact fails nofun
    | cons callee args =>
      refine quiet_bind _ fun b => ?_
      split
      · exact (drop (by omega)).bind fun _ => enter callee args
      · exact return_ fun _ h => .call (h.weaken (by omega))
  | getClass => exact pop.bind fun v => quiet_bind _ fun r => (push r).bind fun _ => next
  | add => exact executeArith .add
  | sub => exact executeArith .sub
  | mul => exact executeArith .mul
  | div => exact executeArith .div
  | eq =>
    exact pop.bind fun b => pop.bind fun a => quiet_bind _ fun e => quiet_bind _ fun r =>
      (push r).bind fun _ => next
  | neq =>
    exact pop.bind fun b => pop.bind fun a => quiet_bind _ fun e => quiet_bind _ fun r =>
      (push r).bind fun _ => next
  | gt | gte | lt | lte =>
    exact (peek 1).bind fun a => (peek 0).bind fun b => quiet_bind _ fun o =>
      quiet_bind _ fun v => (replace (by omega) v).bind fun _ => next
  | not =>
    exact pop.bind fun v => quiet_bind _ fun b => quiet_bind _ fun r => (push r).bind fun _ => next
  | spawn =>
    exact (peek 0).bind fun callable => quiet_bind _ fun request =>
      return_ fun _ h => .wait (h.weaken (by omega))

theorem fetch : Isolated p k Vm.fetch fun _ => p.Holds k := by
  unfold Vm.fetch
  refine quiet_bind _ fun f => ?_
  split
  · exact return_ fun _ h => h
  · exact (goto _).bind fun _ => return_ fun _ h => h

/-- Whatever the instruction word is. -/
theorem perform : Isolated p k Vm.perform p.Flows := by
  unfold Vm.perform
  refine fetch.bind fun next => ?_
  cases next with
  | none => exact quiet_bind _ fun v => return_ fun _ h => .leave (h.weaken (Nat.zero_le k))
  | some i =>
    dsimp only
    split
    · exact execute _ i
    · exact quiet_bind _ fun f => fails nofun

end Isolated

/-! ## Operands of the callers -/

namespace Action

variable {α : Type}

/-- The state with other operands at the bottom. -/
def rebase (low : Array Ref) (vm : Vm) : Vm :=
  vm.restack (low ++ vm.stack.extract low.size vm.stack.size)

/-- The action neither looks at the lowest `b` operands nor changes them: with others in their
place it does the same, and they stay. -/
def Spares (b : Nat) (a : Action α) (vm : Vm) : Prop :=
  (final (a vm)).stack.extract 0 b = vm.stack.extract 0 b ∧
    ∀ low, low.size = b → a (rebase low vm) = mapState (rebase low) (a vm)

theorem rebase_onto {low low' : Array Ref} (h : low'.size = low.size) (vm : Vm) :
    rebase low' (vm.onto low) = vm.onto low' := by
  show { vm with stack := low' ++ (low ++ vm.stack).extract low'.size (low ++ vm.stack).size } = _
  rw [h]
  have := extract_append low vm.stack 0
  rw [Nat.add_zero, Array.extract_size] at this
  rw [this]
  rfl

end Action

theorem Isolated.spares {α : Type} {p : Place} {k : Nat} {a : Action α} {Q : α → Vm → Prop}
    (h : Isolated p k a Q) {vm : Vm} (hvm : p.Holds k vm) {low : Array Ref}
    (hlow : low.size = p.frame.base) : Spares p.frame.base a (vm.onto low) := by
  obtain ⟨out, -, hrun⟩ := h vm hvm
  rw [Spares, hrun low hlow]
  refine ⟨?_, fun low' hlow' => ?_⟩
  · rw [final_mapState, ← hlow]
    show (low ++ _).extract 0 low.size = (low ++ _).extract 0 low.size
    simp
  · rw [rebase_onto (hlow'.trans hlow.symm), hrun low' hlow']
    cases out with
    | ok x vm' => exact congrArg _ (rebase_onto (hlow'.trans hlow.symm) vm').symm
    | error e vm' => exact congrArg _ (rebase_onto (hlow'.trans hlow.symm) vm').symm

end ObjectMachine
