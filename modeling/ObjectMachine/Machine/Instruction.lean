import ObjectMachine.Vm.Call

/-!
# ObjectMachine.Machine.Instruction

What the instructions do.

Operands are only taken from above the base of the running frame; an instruction that needs more
than there are is fatal, as are indices outside the pools of the unit.

* `Flow` — how execution goes on after an instruction.
* `Vm.need`, `Vm.pop`, `Vm.peek`, `Vm.replace` — the operand stack.
* `Vm.loadName`, `Vm.storeName` — names: locals, then the module, then globals, then classes.
* `Vm.execute` — one instruction.
* `Vm.stepLoop` — the next instruction of an interpreter loop, after a look at the collector.
-/

namespace ObjectMachine

inductive Flow where
  | next
  /-- The running frame, or the loop as a whole, returns a value. -/
  | leave (value : Ref)
  /-- The value of a call replaces the top operands. -/
  | call (callee : Ref) (args : List Ref) (operands : Nat)
  /-- The answer to a request replaces the top operands. -/
  | wait (request : Request) (operands : Nat)

namespace Vm

/-- The running frame. -/
def top : Action ActiveFrame := do
  match (← get).frames.back? with
  | some f => return f
  | none => Action.fatal .noActiveFrame

/-- Moves the running frame to an address. -/
def goto (addr : Nat) : Action Unit :=
  modify fun vm =>
    { vm with frames := vm.frames.modify (vm.frames.size - 1) fun f => { f with ip := addr } }

/-- The running frame has at least `n` operands. -/
def need (n : Nat) : Action Unit := do
  let f ← top
  if (← get).stack.size < f.base + n then
    Action.fatal (.stackUnderflow f.unit.name (f.ip - 1))

def push (r : Ref) : Action Unit :=
  modify fun vm => { vm with stack := vm.stack.push r }

/-- The height of the operand stack below its top `n` operands, of which there must be as many. -/
def below (n : Nat) : Action Nat := do
  let height := (← get).stack.size
  if n ≤ height then return height - n
  else Action.fatal (.operandRange n height)

/-- Drops the top `n` operands. -/
def drop (n : Nat) : Action Unit := do
  let height ← below n
  modify fun vm => { vm with stack := vm.stack.shrink height }

/-- The operand below the top `n` ones. -/
def peek (n : Nat) : Action Ref := do
  need (n + 1)
  let height ← below (n + 1)
  let vm ← get
  match vm.stack[height]? with
  | some r => return r
  | none => Action.fatal (.operandRange (n + 1) vm.stack.size)

/-- Takes the top operand. -/
def pop : Action Ref := do
  let r ← peek 0
  drop 1
  return r

/-- The top `n` operands, lowest first. -/
def peekMany (n : Nat) : Action (List Ref) := do
  need n
  let height ← below n
  let vm ← get
  return (vm.stack.extract height vm.stack.size).toList

/-- Puts a value in the place of the top `n` operands. -/
def replace (n : Nat) (r : Ref) : Action Unit := do
  drop n
  push r

/-- A constant of the running unit. -/
def constant (index : UInt8) : Action Ref := do
  let f ← top
  match ← payload f.code with
  | .code c =>
    match c.consts[index.toNat]? with
    | some r => return r
    | none => Action.fatal (.constantRange index f.unit.name)
  | _ => Action.fatal (.constantRange index f.unit.name)

/-- A name of the running unit. -/
def nameAt (index : UInt8) : Action String := do
  let f ← top
  match f.unit.names[index.toNat]? with
  | some n => return n
  | none => Action.fatal (.nameRange index f.unit.name)

/-- The variable of a name in a frame object. -/
def frameVar? (frame : Ref) (name : String) : Action (Option Ref) := do
  match ← payload frame with
  | .frame f => return f.var? name
  | _ => return none

/-- The variable of a name in a module, if there is one. -/
def moduleVar? (module : Option Ref) (name : String) : Action (Option Ref) := do
  match module with
  | none => return none
  | some m =>
    match ← payload m with
    | .module m => return m.locals.find? name
    | _ => return none

/-- The variable of a name in the running frame or in its module. -/
def scopedVar? (name : String) : Action (Option Ref) := do
  let f ← top
  match ← frameVar? f.frame name with
  | some var => return some var
  | none => moduleVar? f.module name

/-- The value of a name. -/
def loadName (name : String) : Action Ref := do
  match ← scopedVar? name with
  | some var =>
    match ← readVar var with
    | some v => return v
    | none => Action.raise (.unbound name)
  | none =>
    let vm ← get
    match vm.globals.find? name with
    | some v => return v
    | none =>
      match vm.classes.find? name with
      | some c => return c
      | none => Action.raise (.unbound name)

/-- Gives a name a value: its variable if there is one, or else a new variable of the module, or
else a global. -/
def storeName (name : String) (value : Ref) : Action Unit := do
  match ← scopedVar? name with
  | some var => writeVar var value
  | none =>
    let f ← top
    match f.module with
    | some m =>
      let var ← newVar (some value)
      let _ ← payload m
      Action.modifyHeap fun h => h.update m (Payload.addLocal name var)
    | none => setGlobal name value

/-- The variables that a closure captures, by name. -/
def captureVars : List String → NameMap Ref → Action (NameMap Ref)
  | [], vars => return vars
  | name :: rest, vars => do
    match ← scopedVar? name with
    | some var => captureVars rest (vars.insert name var)
    | none => Action.raise (.unbound name)

/-- A closure over a loaded unit, with the variables of its free names. -/
def makeClosure (code : Ref) : Action Ref := do
  let unit ← codeUnit code
  let f ← top
  let vars ← captureVars unit.freevars {}
  newMethod unit.name (.closure code f.module vars) none

/-- Puts keys and values, which alternate, in a hash. -/
def fillHash (hash : Ref) : List Ref → Action Unit
  | k :: v :: rest => do
    hashSet hash k v
    fillHash hash rest
  | _ => return ()

/-- The comparison that an operation makes of an order. -/
def orderHolds (op : Op) (o : Ordering) : Bool :=
  match op with
  | .gt => o == .gt
  | .gte => o != .lt
  | .lt => o == .lt
  | _ => o != .gt

/-- Performs an arithmetic instruction. -/
def executeArith (op : Arith) : Action Flow := do
  let a ← peek 1
  let b ← peek 0
  let v ← binary op a b
  replace 2 v
  return .next

/-- Performs an instruction. The running frame already stands at the next one. -/
def execute (op : Op) (i : Instr) : Action Flow := do
  match op with
  | .pushConst =>
    push (← constant i.arg1)
    return .next
  | .pushName =>
    let name ← nameAt i.arg1
    push (← loadName name)
    return .next
  | .storeName =>
    let v ← pop
    let name ← nameAt i.arg1
    storeName name v
    return .next
  | .pushNil =>
    push (← nil)
    return .next
  | .dup =>
    push (← peek 0)
    return .next
  | .pop =>
    let _ ← pop
    return .next
  | .jump =>
    goto i.operand
    return .next
  | .jumpIfTrue =>
    let v ← pop
    if ← truthy v then goto i.operand
    return .next
  | .jumpIfFalse =>
    let v ← pop
    if !(← truthy v) then goto i.operand
    return .next
  | .ret => return .leave (← pop)
  | .makeArray =>
    let n := i.arg1.toNat
    let items ← peekMany n
    drop n
    push (← newArray items)
    return .next
  | .makeHash =>
    let n := 2 * i.arg1.toNat
    let items ← peekMany n
    let hash ← newHash
    fillHash hash items
    replace n hash
    return .next
  | .makeClosure =>
    let code ← constant i.arg1
    push (← makeClosure code)
    return .next
  | .getAttr =>
    let obj ← peek 0
    let name ← nameAt i.arg1
    let v ← getAttr obj name
    replace 1 v
    return .next
  | .getItem =>
    let obj ← peek 1
    let key ← peek 0
    let v ← getItem obj key
    replace 2 v
    return .next
  | .call =>
    let argc := i.arg1.toNat
    match ← peekMany (argc + 1) with
    | callee :: args =>
      if ← isBytecode callee then
        drop (argc + 1)
        enter callee args
        return .next
      else return .call callee args (argc + 1)
    | [] => Action.fatal .noActiveFrame
  | .getClass =>
    let v ← pop
    push (← Action.ofHeap fun h => h.classOf v)
    return .next
  | .add => executeArith .add
  | .sub => executeArith .sub
  | .mul => executeArith .mul
  | .div => executeArith .div
  | .eq =>
    let b ← pop
    let a ← pop
    push (← bool (← equals a b))
    return .next
  | .neq =>
    let b ← pop
    let a ← pop
    push (← bool (!(← equals a b)))
    return .next
  | .gt | .gte | .lt | .lte =>
    let a ← peek 1
    let b ← peek 0
    let o ← compare a b
    let v ← bool (orderHolds op o)
    replace 2 v
    return .next
  | .not =>
    let v ← pop
    push (← bool (!(← truthy v)))
    return .next
  | .spawn =>
    let callable ← peek 0
    return .wait (← requestSpawn callable) 1

/-- Counts an instruction and, at every check interval, collects if the heap asks for it. -/
def tick : Action Unit := do
  modify fun vm => { vm with ticks := vm.ticks + 1 }
  let vm ← get
  if vm.ticks % max vm.config.gcCheckInterval 1 == 0 && vm.heap.shouldCollect then
    let _ ← collect

/-- The instruction at which the running frame stands, and moves the frame past it; `none` at the
end of the code. -/
def fetch : Action (Option Instr) := do
  let f ← top
  match f.unit.code[f.ip]? with
  | none => return none
  | some i =>
    goto (f.ip + 1)
    return some i

/-- Performs the next instruction. Running off the end of the code returns nil. -/
def perform : Action Flow := do
  match ← fetch with
  | none => return .leave (← nil)
  | some i =>
    match i.op? with
    | some op => execute op i
    | none =>
      let f ← top
      Action.fatal (.invalidOpcode i.opcode f.unit.name)

/-- Drops the running frame and its operands. -/
def leaveFrame : Action Unit := do
  let f ← top
  modify fun vm => { vm with frames := vm.frames.pop, stack := vm.stack.shrink f.base }
  trace Channels.vm "vm" fun _ => s!"leave {f.unit.name}"

/-- Returns from the running frame of an interpreter loop that began with `floor` frames below its
own. The value goes to the frame's caller in the loop; if there is none left, the loop leaves. -/
def returnFrom (floor : Nat) (v : Ref) : Action Flow := do
  leaveFrame
  if (← get).frames.size ≤ floor then
    modify fun vm => { vm with loops := vm.loops - 1 }
    return .leave v
  else
    push v
    return .next

/-- Performs the next instruction of such a loop. -/
def performIn (floor : Nat) : Action Flow := do
  match ← perform with
  | .leave v => returnFrom floor v
  | flow => return flow

/-- Looks at the collector, then performs the next instruction of such a loop. -/
def stepLoop (floor : Nat) : Action Flow := do
  tick
  performIn floor

end Vm
end ObjectMachine
