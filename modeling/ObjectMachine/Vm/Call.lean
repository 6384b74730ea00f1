import ObjectMachine.Vm.Copy
import ObjectMachine.Vm.Frames
import ObjectMachine.Vm.Operators

/-!
# ObjectMachine.Vm.Call

Calls, constructors and native functions, up to the point where bytecode has to run or another
task has to be asked.

* `Request` — what a task asks of the system it runs in.
* `Reply` — how a call goes on: with a value, with another call, or with a request.
* `Vm.runNative` — what native functions do.
* `Vm.construct` — a new instance of a class, through the constructor of its chain.
* `Vm.call` — a call of any object, through the call slot of its class chain.
-/

namespace ObjectMachine

inductive Request where
  /-- Start a task that calls a value without arguments. -/
  | spawn (body : Packed)
  /-- Put a message in the mailbox of a task. -/
  | send (target : TaskId) (message : Packed)
  /-- Wait for a message. -/
  | receive
  /-- Wait for the end of a task. -/
  | join (target : TaskId)

inductive Reply where
  | value (r : Ref)
  /-- The result is that of another call. -/
  | call (callee : Ref) (args : List Ref)
  /-- The result tells how another call ended. -/
  | attempt (callee : Ref) (args : List Ref)
  /-- The result is a new instance. -/
  | construct (cls : Ref) (args : List Ref)
  /-- The result is `obj`, once its `init` method has run. -/
  | fill (obj init : Ref) (args : List Ref)
  /-- A frame was pushed on the given heights of the frame stack and the operand stack; the result
  is what it returns. -/
  | entered (floor base : Nat)
  /-- The result depends on other tasks. -/
  | wait (request : Request)

namespace Vm

/-- The texts of several values, with a blank between them. -/
def displayLine (values : List Ref) : Action String := do
  let texts ← Action.ofHeap fun h => values.mapM h.display
  return " ".intercalate texts

/-- The super class that an object stands for; nil stands for none. -/
def superOf (r : Ref) : Action (Option Ref) := do
  match ← payload r with
  | .nil => return none
  | .cls _ => return some r
  | _ => mismatch "class" r

/-- Makes a class from a name, a super class and a size; nil for a super class makes a root class. -/
def classNewFrom (args : List Ref) : Action Ref := do
  match args with
  | [name, super, size] =>
    let name ← textOf name
    let super ← superOf super
    match ← payload size with
    | .int n =>
      if 0 ≤ n.toInt then classNew name super n.toInt.toNat
      else mismatch "int" size
    | _ => mismatch "int" size
  | _ => Action.raise (.arity Native.classNew.name 3 args.length)

/-- An object that is required to be a class. -/
def expectClass (r : Ref) : Action Unit := do
  match ← payload r with
  | .cls _ => return ()
  | _ => mismatch "class" r

/-- Puts a method in a class from the class, a name and the method. -/
def defineFrom (args : List Ref) : Action Ref := do
  match args with
  | [cls, name, method] =>
    expectClass cls
    let name ← textOf name
    defineMethod cls name method
    return cls
  | _ => Action.raise (.arity Native.define.name 3 args.length)

/-- Asks for a task that runs a copy of a value. -/
def requestSpawn (callable : Ref) : Action Request := do
  let body ← pack callable
  return .spawn body

/-- Asks for the delivery of a copy of a value. -/
def requestSend (target value : Ref) : Action Request := do
  let t ← taskOf target
  let message ← pack value
  trace Channels.task "task" fun vm => s!"task {vm.task.number} -> task {t.number}"
  return .send t message

/-- Asks for the end of a task, which must be neither the asking one nor the main one. -/
def requestJoin (target : Ref) : Action Request := do
  let t ← taskOf target
  if t = (← get).task then Action.raise .joinSelf
  if t.isMain then Action.raise .joinMain
  return .join t

/-- Adds an item to an array. -/
def arrayPush (array item : Ref) : Action Unit := do
  match ← payload array with
  | .array items =>
    Action.modifyHeap fun h => h.update array (Payload.setItems (items.push item))
  | _ => mismatch "array" array

/-- Takes the last item off an array; nil if there is none. -/
def arrayPop (array : Ref) : Action Ref := do
  match ← payload array with
  | .array items =>
    Action.modifyHeap fun h => h.update array (Payload.setItems items.pop)
    match items.back? with
    | some r => return r
    | none => nil
  | _ => mismatch "array" array

/-- The value of a key, or nil: unlike indexing, a missing key is no failure. -/
def hashGet (hash key : Ref) : Action Ref := fun vm =>
  match getItem hash key vm with
  | .error (.raised (.noItem _ _)) vm => nil vm
  | result => result

/-- Writes an instance slot; answers whether there is such a slot. -/
def setSlot (obj : Ref) (i : Nat) (value : Ref) : Action Bool := do
  match ← payload obj with
  | .object slots =>
    if i < slots.size then
      Action.modifyHeap fun h => h.update obj (Payload.setSlots (slots.setIfInBounds i value))
      return true
    else return false
  | _ => return false

/-- Reads an instance slot. -/
def getSlot? (obj : Ref) (i : Nat) : Action (Option Ref) := do
  match ← payload obj with
  | .object slots => return slots[i]?
  | _ => return none

/-- What a native function does with its arguments. -/
def runNative (f : Native) (args : List Ref) : Action Reply := do
  match f, args with
  | .print, args =>
    let line ← displayLine args
    modify fun vm => { vm with output := vm.output ++ line ++ "\n" }
    return .value (← nil)
  | .str, [r] => return .value (← strOf r)
  | .classNew, args => return .value (← classNewFrom args)
  | .define, args => return .value (← defineFrom args)
  | .importModule, [name] =>
    let name ← textOf name
    return .value (← importModule name)
  | .makeError, args => return .construct (Builtin.error.ref (← get).heap.id) args
  | .raise, [v] => Action.raise (.panic v)
  | .collect, [] =>
    let freed ← collect
    return .value (← newLength freed)
  | .spawn, [callable] => return .wait (← requestSpawn callable)
  | .send, [target, value] | .taskSend, [target, value] =>
    return .wait (← requestSend target value)
  | .receive, [] => return .wait .receive
  | .join, [target] | .taskJoin, [target] => return .wait (← requestJoin target)
  | .currentTask, [] => return .value (← currentTask)
  | .strLen, [s] =>
    let b ← bytesOf s
    return .value (← newLength b.size)
  | .arrayPush, [a, item] =>
    arrayPush a item
    return .value a
  | .arrayPop, [a] => return .value (← arrayPop a)
  | .arrayLen, [a] =>
    let items ← itemsOf a
    return .value (← newLength items.size)
  | .hashSet, [h, k, v] =>
    hashSet h k v
    return .value h
  | .hashGet, [h, k] => return .value (← hashGet h k)
  | .hashLen, [h] =>
    let t ← tableOf h
    return .value (← newLength t.size)
  | .hashKeys, [h] =>
    let t ← tableOf h
    return .value (← newArray t.keys.toList)
  | .taskNumber, [t] =>
    let t ← taskOf t
    return .value (← newLength t.number)
  | .answer, _ => return .value (← newInt 42)
  | .arguments, args => return .value (← newArray args)
  | .fail, _ => Action.raise .divisionByZero
  | .apply, callee :: args => return .call callee args
  | .attempt, callee :: args => return .attempt callee args
  | .depth, _ => return .value (← newLength (← get).depth)
  | .backtrace, _ =>
    let lines ← newStrs (← get).backtrace
    return .value (← newArray lines)
  | .slotGet, obj :: i :: _ =>
    match ← payload i with
    | .int n =>
      match ← getSlot? obj n.toInt.toNat with
      | some r => return .value r
      | none => throw .crashed
    | _ => throw .crashed
  | .slotSet, obj :: i :: value :: _ =>
    match ← payload i with
    | .int n => if ← setSlot obj n.toInt.toNat value then return .value obj else throw .crashed
    | _ => throw .crashed
  | .apply, [] | .attempt, [] | .slotGet, _ | .slotSet, _ => throw .crashed
  | f, args =>
    let expected :=
      match f with
      | .collect | .receive | .currentTask => 0
      | .send | .taskSend | .arrayPush | .hashGet => 2
      | .hashSet => 3
      | _ => 1
    Action.raise (.arity f.name expected args.length)

/-- Bytes of one instance slot. -/
def slotBytes : Nat := 12

/-- A plain instance with nil in every slot. An `init` method of the chain is run on it; without
one there must be no arguments. -/
def constructObject (cls : Ref) (args : List Ref) : Action Reply := do
  let c ← Action.ofHeap fun h => h.cls cls
  if c.size * slotBytes > maxBytes then throw .crashed
  let nothing ← nil
  let obj ← alloc cls (.object (Array.replicate c.size nothing))
  match ← Action.ofHeap fun h => h.lookupMethod cls "init" with
  | some init =>
    let bound ← bind init obj
    return .fill obj bound args
  | none =>
    if args.isEmpty then return .value obj
    else Action.raise (.arity (c.name ++ ".init") 0 args.length)

/-- The integer that a value is converted to; a float is cut off and kept in range. -/
def toInt (r : Ref) : Action Int64 := do
  match ← payload r with
  | .int i => return i
  | .float x => return x.toInt64
  | .bool b => return if b then 1 else 0
  | .str b =>
    match (Text.decode? b).bind fun s => Decimal.integer? (Text.trim s.toList) with
    | some i => return i
    | none => mismatch "int" r
  | _ => mismatch "int" r

/-- The float that a value is converted to. -/
def toFloat (r : Ref) : Action Float := do
  match ← payload r with
  | .int i => return i.toFloat
  | .float x => return x
  | .str b =>
    match (Text.decode? b).bind fun s => Decimal.float? (Text.trim s.toList) with
    | some x => return x
    | none => mismatch "number" r
  | _ => mismatch "number" r

/-- What a constructor makes for a class and arguments. Numbers and containers are made as
instances of the class that was asked for. -/
def runInit (f : InitFn) (cls : Ref) (args : List Ref) : Action Reply := do
  match f, args with
  | .object, args => constructObject cls args
  | .cls, args => return .value (← classNewFrom args)
  | .nil, [] => return .value (← nil)
  | .nil, args => Action.raise (.arity "Nil" 0 args.length)
  | .bool, [] => return .value (← bool false)
  | .bool, [v] => return .value (← bool (← truthy v))
  | .bool, args => Action.raise (.arity "Bool" 1 args.length)
  | .int, [] => return .value (← alloc cls (.int 0))
  | .int, [v] =>
    let i ← toInt v
    return .value (← alloc cls (.int i))
  | .int, args => Action.raise (.arity "Int" 1 args.length)
  | .float, [] => return .value (← alloc cls (.float 0.0))
  | .float, [v] =>
    let x ← toFloat v
    return .value (← alloc cls (.float x))
  | .float, args => Action.raise (.arity "Float" 1 args.length)
  | .str, [] => return .value (← newStr "")
  | .str, [v] =>
    match ← payload v with
    | .str _ => return .value v
    | _ => return .value (← strOf v)
  | .str, args => Action.raise (.arity "Str" 1 args.length)
  | .array, args => return .value (← alloc cls (.array args.toArray))
  | .hash, [] => return .value (← alloc cls (.hash {}))
  | .hash, args => Action.raise (.arity "Hash" 0 args.length)
  | .error, [message] =>
    let text ← textOf message
    return .value (← newError text none)
  | .error, [message, cause] =>
    let text ← textOf message
    return .value (← newError text (some cause))
  | .error, args => Action.raise (.arity "Error" 1 args.length)
  | .refuse, _ =>
    let c ← Action.ofHeap fun h => h.cls cls
    Action.raise (.notInstantiable c.name)
  | .arguments, args => return .value (← newArray args)

/-- A new instance of a class. -/
def construct (cls : Ref) (args : List Ref) : Action Reply := do
  let f ← Action.ofHeap fun h => h.requireSlot .init Slots.init cls
  runInit f cls args

/-- Calls a method: a native function runs at once, with a bound receiver ahead of the arguments;
bytecode gets an interpreter loop. -/
def callMethod (method : Ref) (args : List Ref) : Action Reply := do
  match ← payload method with
  | .method m =>
    match m.body with
    | .native f => runNative f (m.receiver.toList ++ args)
    | _ =>
      let (floor, base) ← enterLoop method args
      return .entered floor base
  | _ => mismatch "method" method

/-- Calls any object. Calling a class makes an instance. -/
def call (callee : Ref) (args : List Ref) : Action Reply := do
  match ← require .call Slots.call callee with
  | .method => callMethod callee args
  | .cls => construct callee args
  | .arguments => return .value (← newArray args)

end Vm
end ObjectMachine
