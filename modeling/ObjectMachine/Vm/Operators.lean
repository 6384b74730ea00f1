import ObjectMachine.Vm.Make

/-!
# ObjectMachine.Vm.Operators

Arithmetic, attributes and indexing. Each operator finds its function in the dispatch table of the
class chain of its first operand; a chain without one is fatal.

Integer arithmetic wraps around; with a float among the operands both are taken as floats.

* `Vm.binary` — `+`, `-`, `*`, `/`.
* `Vm.getAttr`, `Vm.getItem` — attributes and items.
* `Vm.compare` — the order of two values; a failure if they are not comparable.
* `Vm.strOf` — the display form of a value as a string object.
-/

namespace ObjectMachine

/-- The most bytes that one allocation can have. -/
def maxBytes : Nat := 0x7FFFFFFFFFFFFFFF

/-- Arithmetic on integers, modulo `2 ^ 64`; `none` for a division by zero. -/
def Arith.onInts (op : Arith) (a b : Int64) : Option Int64 :=
  match op with
  | .add => some (a + b)
  | .sub => some (a - b)
  | .mul => some (a * b)
  | .div => if b = 0 then none else some (a / b)

def Arith.onFloats (op : Arith) (x y : Float) : Float :=
  match op with
  | .add => x + y
  | .sub => x - y
  | .mul => x * y
  | .div => x / y

/-- The bytes `start`, then `n` times `b`. -/
def repeatBytes (b : ByteArray) : Nat → ByteArray → ByteArray
  | 0, start => start
  | n + 1, start => repeatBytes b n (start ++ b)

namespace Vm

/-- The number that an object holds. -/
def numberOf (r : Ref) : Action Number := do
  match (← payload r).number? with
  | some n => return n
  | none => mismatch "number" r

/-- The integer that an object holds. -/
def intOf (r : Ref) : Action Int64 := do
  match ← payload r with
  | .int i => return i
  | _ => mismatch "int" r

/-- The bytes of a string object. -/
def bytesOf (r : Ref) : Action ByteArray := do
  match ← payload r with
  | .str b => return b
  | _ => mismatch "string" r

/-- The text of a string object, malformed parts replaced. -/
def textOf (r : Ref) : Action String := do
  let b ← bytesOf r
  return Text.lossy b

/-- The items of an array object. -/
def itemsOf (r : Ref) : Action (Array Ref) := do
  match ← payload r with
  | .array items => return items
  | _ => mismatch "array" r

/-- The entries of a hash object. -/
def tableOf (r : Ref) : Action HashTable := do
  match ← payload r with
  | .hash t => return t
  | _ => mismatch "hash" r

/-- The task that a task object names. -/
def taskOf (r : Ref) : Action TaskId := do
  match ← payload r with
  | .task t => return t.task
  | _ => mismatch "task" r

/-- A place in a sequence of `len` elements; negative integers are not places. -/
def place? (i : Int64) (len : Nat) : Option Nat :=
  let z := i.toInt
  if 0 ≤ z ∧ z < len then some z.toNat else none

def arith (op : Arith) (a b : Ref) : Action Ref := do
  let x ← numberOf a
  let y ← numberOf b
  match x, y with
  | .int i, .int j =>
    match op.onInts i j with
    | some v => newInt v
    | none => Action.raise .divisionByZero
  | x, y => newFloat (op.onFloats x.toFloat y.toFloat)

/-- What a binary operator does. -/
def runBinary (f : BinaryFn) (a b : Ref) : Action Ref := do
  match f with
  | .number op => arith op a b
  | .strAdd =>
    let x ← bytesOf a
    let y ← bytesOf b
    newBytes (x ++ y)
  | .strMul =>
    let n ← intOf b
    let x ← bytesOf a
    let times := n.toInt.toNat
    if x.size * times > maxBytes then throw .crashed
    newBytes (if x.size = 0 then ByteArray.empty else repeatBytes x times ByteArray.empty)
  | .arrayAdd =>
    let xs ← itemsOf a
    let ys ← itemsOf b
    newArray (xs.toList ++ ys.toList)
  | .left => return a
  | .right => return b
  | .pair => newArray [a, b]
  | .fail => Action.raise .divisionByZero

/-- The slot of an arithmetic operation in a dispatch table. -/
def arithSlot (op : Arith) (s : Slots) : Option BinaryFn :=
  match op with
  | .add => s.add
  | .sub => s.sub
  | .mul => s.mul
  | .div => s.div

/-- The name of that slot. -/
def arithSlotName : Arith → Slot
  | .add => .add
  | .sub => .sub
  | .mul => .mul
  | .div => .div

/-- Finds a function along the class chain of an object. -/
def require {α : Type} (slot : Slot) (pick : Slots → Option α) (r : Ref) : Action α :=
  Action.ofHeap fun h => do
    let k ← h.classOf r
    h.requireSlot slot pick k

def binary (op : Arith) (a b : Ref) : Action Ref := do
  let f ← require (arithSlotName op) (arithSlot op) a
  runBinary f a b

/-- The order of two values. -/
def compare (a b : Ref) : Action Ordering := do
  match ← Action.ofHeap fun h => h.compare a b with
  | some o => return o
  | none =>
    let left ← className a
    let right ← className b
    Action.raise (.notComparable left right)

def equals (a b : Ref) : Action Bool :=
  Action.ofHeap fun h => h.equals a b

def truthy (r : Ref) : Action Bool :=
  Action.ofHeap fun h => h.truthy r

def display (r : Ref) : Action String :=
  Action.ofHeap fun h => h.display r

/-- The display form as a string object. -/
def strOf (r : Ref) : Action Ref := do
  let s ← display r
  newStr s

/-- A method of the object's class chain, bound to the object. -/
def getMethod (obj : Ref) (name : String) : Action Ref := do
  let k ← Action.ofHeap fun h => h.classOf obj
  match ← Action.ofHeap fun h => h.lookupMethod k name with
  | some m => bind m obj
  | none =>
    let c ← Action.ofHeap fun h => h.cls k
    Action.raise (.noAttribute c.name name)

/-- A class's `name` and `super`, then the methods of its chain unbound, then methods of `Class`. -/
def getClassAttr (cls : Ref) (name : String) : Action Ref := do
  if name = "name" then
    let c ← Action.ofHeap fun h => h.cls cls
    newStr c.name
  else if name = "super" then
    let c ← Action.ofHeap fun h => h.cls cls
    match c.super with
    | some s => return s
    | none => nil
  else
    match ← Action.ofHeap fun h => h.lookupMethod cls name with
    | some m => return m
    | none => getMethod cls name

/-- A member of a module. -/
def getMember (module : Ref) (name : String) : Action Ref := do
  match ← payload module with
  | .module m =>
    match m.locals.find? name with
    | none => Action.raise (.noAttribute ("module " ++ m.name) name)
    | some var =>
      match ← readVar var with
      | some v => return v
      | none => Action.raise (.unbound name)
  | _ => mismatch "module" module

/-- An error's `message`, `cause` and `backtrace`, then its methods. -/
def getErrorAttr (err : Ref) (name : String) : Action Ref := do
  match ← payload err with
  | .error e =>
    if name = "message" then newStr e.message
    else if name = "cause" then
      match e.cause with
      | some c => return c
      | none => nil
    else if name = "backtrace" then
      let lines ← newStrs e.backtrace
      newArray lines
    else getMethod err name
  | _ => mismatch "error" err

def runGetAttr (f : GetAttrFn) (obj : Ref) (name : String) : Action Ref :=
  match f with
  | .object => getMethod obj name
  | .cls => getClassAttr obj name
  | .module => getMember obj name
  | .error => getErrorAttr obj name
  | .name => newStr name

def getAttr (obj : Ref) (name : String) : Action Ref := do
  let f ← require .getAttr Slots.getAttr obj
  runGetAttr f obj name

def runGetItem (f : GetItemFn) (obj key : Ref) : Action Ref := do
  match f with
  | .str =>
    let i ← intOf key
    let b ← bytesOf obj
    match place? i b.size with
    | some n => newBytes ⟨#[b.data.getD n 0]⟩
    | none => Action.raise (.indexOutOfRange i b.size)
  | .array =>
    let i ← intOf key
    let items ← itemsOf obj
    match place? i items.size with
    | some n =>
      match items[n]? with
      | some r => return r
      | none => Action.raise (.indexOutOfRange i items.size)
    | none => Action.raise (.indexOutOfRange i items.size)
  | .hash =>
    let t ← tableOf obj
    match ← Action.ofHeap fun h => h.position? t key with
    | some i =>
      match t.entries[i]? with
      | some (_, v) => return v
      | none => nil
    | none =>
      let c ← className obj
      let k ← display key
      Action.raise (.noItem c k)
  | .key => return key

def getItem (obj key : Ref) : Action Ref := do
  let f ← require .getItem Slots.getItem obj
  runGetItem f obj key

end Vm
end ObjectMachine
