import ObjectMachine.Proofs.Machine.CallEnds
import ObjectMachine.Proofs.Scopes.Reads

/-!
# ObjectMachine.Proofs.Machine.Footing

Where the frames stand when an instruction has ended.

* `Firm` — the actions that leave the frames, the loops and the settings as they are. The instances
  follow the definitions.
* `ActiveFrame.At` — the instruction at which a frame stands.
* `ActiveFrame.Performs`, `Vm.perform_performs` — an instruction leaves the frames below its own as
  they are, and its own frame behind itself unless it jumps.
-/

namespace ObjectMachine

open ObjectMachine.Action

/-- The frames of a task, its interpreter loops and its settings. -/
structure Vm.Footing where
  frames : Array ActiveFrame
  loops : Nat
  config : Config

def Vm.footing (vm : Vm) : Vm.Footing :=
  ⟨vm.frames, vm.loops, vm.config⟩

theorem Vm.footing_of_context {vm vm' : Vm} (h : vm'.context = vm.context) :
    vm'.footing = vm.footing := by
  have hframes : vm'.frames = vm.frames := congrArg Context.frames h
  have hloops : vm'.loops = vm.loops := congrArg Context.loops h
  have hconfig : vm'.config = vm.config := congrArg Context.config h
  rw [footing, hframes, hloops, hconfig]
  rfl

/-- An action that leaves the frames, the loops and the settings, whether or not it fails. -/
class Firm {α : Type} (a : Action α) : Prop where
  footing : ∀ vm, (final (a vm)).footing = vm.footing

namespace Firm

variable {α β : Type}

instance steady (a : Action α) [ha : Steady a] : Firm a :=
  ⟨fun vm => Vm.footing_of_context (ha.context vm)⟩

instance reads (a : Action α) [ha : Reads a] : Firm a :=
  ⟨fun vm => congrArg Vm.footing (ha.state vm)⟩

instance bind (a : Action α) (f : α → Action β) [ha : Firm a] [hf : ∀ x, Firm (f x)] :
    Firm (a >>= f) := by
  constructor
  intro vm
  have hrun := ha.footing vm
  cases hout : a vm with
  | ok x vm' =>
    rw [hout] at hrun
    rw [bind_ok hout]
    exact ((hf x).footing vm').trans hrun
  | error e vm' =>
    rw [hout] at hrun
    rw [bind_error hout]
    exact hrun

theorem of_ok {a : Action α} [ha : Firm a] {vm vm' : Vm} {x : α} (h : a vm = .ok x vm') :
    vm'.frames = vm.frames := by
  have hfooting := ha.footing vm
  rw [h] at hfooting
  exact congrArg Vm.Footing.frames hfooting

theorem of_error {a : Action α} [ha : Firm a] {vm vm' : Vm} {e : Stop} (h : a vm = .error e vm') :
    vm'.frames = vm.frames := by
  have hfooting := ha.footing vm
  rw [h] at hfooting
  exact congrArg Vm.Footing.frames hfooting

/-! ## Instructions -/

instance push (r : Ref) : Firm (Vm.push r) := ⟨fun _ => rfl⟩

instance drop (n : Nat) : Firm (Vm.drop n) := by
  unfold Vm.drop
  exact @bind _ _ _ _ _ fun _ => ⟨fun _ => rfl⟩

instance pop : Firm Vm.pop := by
  unfold Vm.pop; infer_instance

instance replace (n : Nat) (r : Ref) : Firm (Vm.replace n r) := by
  unfold Vm.replace; infer_instance

instance executeArith (op : Arith) : Firm (Vm.executeArith op) := by
  unfold Vm.executeArith; infer_instance

/-- Only jumps and calls do anything to the frames. -/
theorem execute {op : Op} (hjump : op ≠ .jump ∧ op ≠ .jumpIfTrue ∧ op ≠ .jumpIfFalse)
    (hcall : op ≠ .call) (i : Instr) : Firm (Vm.execute op i) := by
  cases op with
  | jump => exact absurd rfl hjump.1
  | jumpIfTrue => exact absurd rfl hjump.2.1
  | jumpIfFalse => exact absurd rfl hjump.2.2
  | call => exact absurd rfl hcall
  | _ =>
    unfold Vm.execute
    infer_instance

end Firm

/-- An instruction that goes on with another one of the running loop. -/
class GoesOn (a : Action Flow) : Prop where
  next : ∀ {vm flow vm'}, a vm = .ok flow vm' → flow = .next

namespace GoesOn

instance return_ : GoesOn (pure .next) :=
  ⟨by rintro _ _ _ ⟨⟩; rfl⟩

instance bind {α : Type} (a : Action α) (f : α → Action Flow) [hf : ∀ x, GoesOn (f x)] :
    GoesOn (a >>= f) := by
  constructor
  intro vm flow vm' h
  obtain ⟨x, u, -, h⟩ := bind_eq_ok.mp h
  exact (hf x).next h

instance executeArith (op : Arith) : GoesOn (Vm.executeArith op) := by
  unfold Vm.executeArith; infer_instance

theorem execute {op : Op} (hop : op ≠ .ret ∧ op ≠ .call ∧ op ≠ .spawn) (i : Instr) :
    GoesOn (Vm.execute op i) := by
  cases op with
  | ret => exact absurd rfl hop.1
  | call => exact absurd rfl hop.2.1
  | spawn => exact absurd rfl hop.2.2
  | jumpIfTrue =>
    refine @bind _ _ _ fun v => @bind _ _ _ fun b => ?_
    dsimp only
    split <;> infer_instance
  | jumpIfFalse =>
    refine @bind _ _ _ fun v => @bind _ _ _ fun b => ?_
    dsimp only
    split <;> infer_instance
  | _ =>
    unfold Vm.execute
    infer_instance

end GoesOn

namespace ActiveFrame

/-- The frame at another address. -/
def goTo (f : ActiveFrame) (ip : Nat) : ActiveFrame :=
  { f with ip := ip }

/-- The frame stands at an instruction, of the kind `op`. -/
def At (f : ActiveFrame) (op : Op) : Prop :=
  ∃ i, f.unit.code[f.ip]? = some i ∧ i.op? = some op

/-- How the next instruction of the frame `f` ends, where `outer` are the frames below. -/
inductive Performs (outer : Array ActiveFrame) (f : ActiveFrame) :
    EStateM.Result Stop Vm Flow → Prop where
  | fails {e : Stop} {vm : Vm} {i : Instr} : f.unit.code[f.ip]? = some i →
      vm.frames = outer.push (f.goTo (f.ip + 1)) → Performs outer f (.error e vm)
  | stays {vm : Vm} {ip : Nat} : vm.frames = outer.push (f.goTo ip) →
      Performs outer f (.ok .next vm)
  | enters {vm : Vm} {g : ActiveFrame} : f.At .call →
      vm.frames = (outer.push (f.goTo (f.ip + 1))).push g → Performs outer f (.ok .next vm)
  | leaves {vm : Vm} {v : Ref} {ip : Nat} : vm.frames = outer.push (f.goTo ip) →
      Performs outer f (.ok (.leave v) vm)
  | calls {vm : Vm} {callee : Ref} {args : List Ref} {n : Nat} : f.At .call →
      vm.frames = outer.push (f.goTo (f.ip + 1)) → Performs outer f (.ok (.call callee args n) vm)
  | waits {vm : Vm} {request : Request} {n : Nat} : f.At .spawn →
      vm.frames = outer.push (f.goTo (f.ip + 1)) → Performs outer f (.ok (.wait request n) vm)

end ActiveFrame

section Performs

variable {vm : Vm} {outer : Array ActiveFrame} {f : ActiveFrame} {i : Instr} {op : Op}

namespace ActiveFrame.Performs

/-- Something firm before it makes no difference. -/
theorem bind {α : Type} (a : Action α) [Firm a] {g : α → Action Flow}
    (hi : f.unit.code[f.ip]? = some i) (hframes : vm.frames = outer.push (f.goTo (f.ip + 1)))
    (hg : ∀ x u, u.frames = outer.push (f.goTo (f.ip + 1)) → f.Performs outer (g x u)) :
    f.Performs outer ((a >>= g) vm) := by
  cases ha : a vm with
  | error e u =>
    rw [bind_error ha]
    exact .fails hi ((Firm.of_error ha).trans hframes)
  | ok x u =>
    rw [bind_ok ha]
    exact hg x u ((Firm.of_ok ha).trans hframes)

/-- An instruction that leaves the frames and goes on. -/
theorem of_firm {a : Action Flow} (hfirm : Firm a) (hnext : GoesOn a)
    (hi : f.unit.code[f.ip]? = some i) (hframes : vm.frames = outer.push (f.goTo (f.ip + 1))) :
    f.Performs outer (a vm) := by
  cases ha : a vm with
  | error e u => exact .fails hi ((Firm.of_error ha).trans hframes)
  | ok flow u =>
    obtain rfl := hnext.next ha
    exact .stays ((Firm.of_ok ha).trans hframes)

end ActiveFrame.Performs

namespace Vm

theorem goto_frames (hframes : vm.frames = outer.push f) (addr : Nat) :
    ∃ vm', goto addr vm = .ok () vm' ∧ vm'.frames = outer.push (f.goTo addr) := by
  refine ⟨_, rfl, ?_⟩
  show vm.frames.modify (vm.frames.size - 1) (·.goTo addr) = _
  rw [hframes, Array.size_push, Nat.add_sub_cancel, modify_push]

theorem goto_performs (hframes : vm.frames = outer.push (f.goTo (f.ip + 1))) (addr : Nat) :
    f.Performs outer ((do goto addr; return .next : Action Flow) vm) := by
  obtain ⟨u, hgoto, hu⟩ := goto_frames hframes addr
  rw [bind_ok hgoto]
  exact .stays hu

/-- Entering a method puts a frame on top, or fails. -/
theorem enter_performs (hat : f.At .call) (hframes : vm.frames = outer.push (f.goTo (f.ip + 1)))
    (callee : Ref) (args : List Ref) :
    f.Performs outer ((do enter callee args; return .next : Action Flow) vm) := by
  obtain ⟨i, hi, hop⟩ := hat
  rcases enter_cases callee args vm with ⟨e, u, hrun, hctx, -⟩ | ⟨g, u, hrun, hctx⟩
  · rw [bind_error hrun]
    exact .fails hi ((congrArg Context.frames hctx).trans hframes)
  · rw [bind_ok hrun]
    have hu : u.frames = vm.frames.push { g with base := vm.stack.size } :=
      congrArg Context.frames hctx
    rw [hframes] at hu
    exact .enters ⟨i, hi, hop⟩ hu

theorem execute_performs (hi : f.unit.code[f.ip]? = some i) (hop : i.op? = some op)
    (hframes : vm.frames = outer.push (f.goTo (f.ip + 1))) :
    f.Performs outer (execute op i vm) := by
  have hat : f.At op := ⟨i, hi, hop⟩
  cases op with
  | jump => exact goto_performs hframes _
  | jumpIfTrue =>
    refine .bind pop hi hframes fun v u hu => .bind (truthy v) hi hu fun b u hu => ?_
    cases b with
    | true => exact goto_performs hu _
    | false => exact .stays hu
  | jumpIfFalse =>
    refine .bind pop hi hframes fun v u hu => .bind (truthy v) hi hu fun b u hu => ?_
    cases b with
    | true => exact .stays hu
    | false => exact goto_performs hu _
  | call =>
    refine .bind (peekMany _) hi hframes fun operands u hu => ?_
    cases operands with
    | nil => exact .fails hi hu
    | cons callee args =>
      refine .bind (isBytecode callee) hi hu fun b u hu => ?_
      cases b with
      | true => exact .bind (drop _) hi hu fun _ u hu => enter_performs hat hu callee args
      | false => exact .calls hat hu
  | spawn =>
    exact .bind (peek 0) hi hframes fun callable u hu =>
      .bind (requestSpawn callable) hi hu fun request u hu => .waits hat hu
  | ret => exact .bind pop hi hframes fun v u hu => .leaves hu
  | _ =>
    refine .of_firm (Firm.execute ?_ ?_ i) (GoesOn.execute ?_ i) hi hframes <;> decide

/-- Whatever the next instruction of the running frame is. -/
theorem perform_performs (hframes : vm.frames = outer.push f) : f.Performs outer (perform vm) := by
  have htop : top vm = .ok f vm := top_push hframes
  unfold perform fetch
  rw [bind_assoc, bind_ok htop]
  cases hi : f.unit.code[f.ip]? with
  | none => exact .leaves hframes
  | some i =>
    obtain ⟨u, hgoto, hu⟩ := goto_frames hframes (f.ip + 1)
    have hfetched : (goto (f.ip + 1) >>= fun _ => (pure (some i) : Action (Option Instr))) vm =
        .ok (some i) u := bind_ok hgoto
    rw [bind_ok hfetched]
    dsimp only
    cases hop : i.op? with
    | some op => exact execute_performs hi hop hu
    | none => exact .bind top hi hu fun g u hu => .fails hi hu

end Vm
end Performs
end ObjectMachine
