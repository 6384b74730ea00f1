/-!
# ObjectMachine.Dispatch

The dispatch table of a class, and the functions that may stand in it.

Every operator, construction, attribute access, finalization and tracing of an object goes through
a slot of its class. The functions are named here and given their meaning where they act: the
built-in ones, and the hooks, with which an embedding program may change a class.

* `Slot` — the slots, with the names used in reports.
* `Slots` — a dispatch table; an empty slot defers to the super class.
* `Native` — the functions that methods can run natively.
-/

namespace ObjectMachine

inductive Slot where
  | cmp
  | init
  | dtor
  | str
  | mark
  | add
  | sub
  | mul
  | div
  | call
  | getAttr
  | getItem
  | nonzero
deriving DecidableEq, Repr

def Slot.text : Slot → String
  | .cmp => "cmp"
  | .init => "init"
  | .dtor => "dtor"
  | .str => "str"
  | .mark => "mark"
  | .add => "add (+)"
  | .sub => "sub (-)"
  | .mul => "mul (*)"
  | .div => "div (/)"
  | .call => "call"
  | .getAttr => "getattr"
  | .getItem => "getitem"
  | .nonzero => "nonzero"

/-- The plain name of a slot. -/
def Slot.name : Slot → String
  | .add => "add"
  | .sub => "sub"
  | .mul => "mul"
  | .div => "div"
  | s => s.text

namespace Slot

def all : List Slot :=
  [cmp, init, dtor, str, mark, add, sub, mul, div, call, getAttr, getItem, nonzero]

/-- The slot with a plain name. -/
def ofName? (s : String) : Option Slot :=
  all.find? fun slot => slot.name == s

end Slot

/-- Three-way comparisons. -/
inductive CmpFn where
  | bool
  | number
  | bytes
  | array
  | hash
  | task
  /-- Hook: above every integer, not comparable with anything else. -/
  | aboveInts
  /-- Hook: never comparable. -/
  | never
  /-- Hook: compares the first instance slot instead. -/
  | unwrap
deriving DecidableEq, Repr

/-- Constructors. -/
inductive InitFn where
  | object
  | cls
  | nil
  | bool
  | int
  | float
  | str
  | array
  | hash
  | error
  /-- For classes whose instances only the machine makes. -/
  | refuse
  /-- Hook: an array of the arguments. -/
  | arguments
deriving DecidableEq, Repr

/-- Finalizers. -/
inductive DtorFn where
  /-- Lets go of the task that a task object names. -/
  | task
  /-- Hook: notes a description of the object under a tag. -/
  | note (tag : String)
deriving DecidableEq, Repr

/-- Display forms. -/
inductive StrFn where
  | object
  | cls
  | nil
  | bool
  | int
  | float
  | str
  | array
  | hash
  | method
  | code
  | frame
  | module
  | task
  | var
  | error
  /-- Hook: a fixed text. -/
  | fixed (text : String)
deriving DecidableEq, Repr

/-- Tracing: which part of an object holds references. -/
inductive MarkFn where
  | object
  | cls
  | array
  | hash
  | method
  | code
  | frame
  | module
  | var
  | error
deriving DecidableEq, Repr

/-- The four arithmetic operations. -/
inductive Arith where
  | add
  | sub
  | mul
  | div
deriving DecidableEq, Repr

/-- Binary operators. -/
inductive BinaryFn where
  | number (op : Arith)
  | strAdd
  | strMul
  | arrayAdd
  /-- Hook: the left operand. -/
  | left
  /-- Hook: the right operand. -/
  | right
  /-- Hook: an array of both operands. -/
  | pair
  /-- Hook: fails as a division by zero. -/
  | fail
deriving DecidableEq, Repr

/-- Calls. -/
inductive CallFn where
  | method
  | cls
  /-- Hook: an array of the arguments. -/
  | arguments
deriving DecidableEq, Repr

/-- Attribute access. -/
inductive GetAttrFn where
  | object
  | cls
  | module
  | error
  /-- Hook: the attribute's name. -/
  | name
deriving DecidableEq, Repr

/-- Indexing. -/
inductive GetItemFn where
  | str
  | array
  | hash
  /-- Hook: the key. -/
  | key
deriving DecidableEq, Repr

/-- Truth values. -/
inductive NonzeroFn where
  /-- The same answer for every object. -/
  | always (answer : Bool)
  | bool
  | int
  | float
  | str
  | array
  | hash
deriving DecidableEq, Repr

/-- The dispatch table of a class. -/
structure Slots where
  cmp : Option CmpFn := none
  init : Option InitFn := none
  dtor : Option DtorFn := none
  str : Option StrFn := none
  mark : Option MarkFn := none
  add : Option BinaryFn := none
  sub : Option BinaryFn := none
  mul : Option BinaryFn := none
  div : Option BinaryFn := none
  call : Option CallFn := none
  getAttr : Option GetAttrFn := none
  getItem : Option GetItemFn := none
  nonzero : Option NonzeroFn := none
deriving DecidableEq, Repr, Inhabited

/-- Functions that a method can run natively. A bound receiver is their first argument. -/
inductive Native where
  | print
  | str
  | classNew
  | define
  | importModule
  | makeError
  | raise
  | collect
  | spawn
  | send
  | receive
  | join
  | currentTask
  | strLen
  | arrayPush
  | arrayPop
  | arrayLen
  | hashSet
  | hashGet
  | hashLen
  | hashKeys
  | taskSend
  | taskJoin
  | taskNumber
  /-- Hook: the integer 42. -/
  | answer
  /-- Hook: an array of the arguments. -/
  | arguments
  /-- Hook: fails as a division by zero. -/
  | fail
  /-- Hook: calls its first argument with the others. -/
  | apply
  /-- Hook: calls its first argument with the others; tells success from failure. -/
  | attempt
  /-- Hook: the number of active frames. -/
  | depth
  /-- Hook: the active frames, innermost first. -/
  | backtrace
  /-- Hook: reads an instance slot. -/
  | slotGet
  /-- Hook: writes an instance slot. -/
  | slotSet
deriving DecidableEq, Repr

namespace Native

/-- The functions that every task has as globals, in the order of their creation. -/
def globals : List (String × Native) :=
  [("print", print), ("str", str), ("class_new", classNew), ("define", define),
   ("import", importModule), ("error", makeError), ("panic", raise), ("gc", collect),
   ("spawn", spawn), ("send", send), ("recv", receive), ("join", join),
   ("current_task", currentTask)]

/-- The name under which a function reports a wrong number of arguments. -/
def name : Native → String
  | print => "print"
  | str => "str"
  | classNew => "class_new"
  | define => "define"
  | importModule => "import"
  | makeError => "error"
  | raise => "panic"
  | collect => "gc"
  | spawn => "spawn"
  | send => "send"
  | receive => "recv"
  | join => "join"
  | currentTask => "current_task"
  | strLen => "Str.len"
  | arrayPush => "Array.push"
  | arrayPop => "Array.pop"
  | arrayLen => "Array.len"
  | hashSet => "Hash.set"
  | hashGet => "Hash.get"
  | hashLen => "Hash.len"
  | hashKeys => "Hash.keys"
  | taskSend => "Task.send"
  | taskJoin => "Task.join"
  | taskNumber => "Task.id"
  | answer => "answer"
  | arguments => "args"
  | fail => "fail"
  | apply => "apply"
  | attempt => "try"
  | depth => "depth"
  | backtrace => "backtrace"
  | slotGet => "slot_get"
  | slotSet => "slot_set"

end Native
end ObjectMachine
