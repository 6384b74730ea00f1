import ObjectMachine.Decimal.Notation
import ObjectMachine.Heap.Chain
import ObjectMachine.Text.Utf8

/-!
# ObjectMachine.Heap.Display

The display form of objects.

The text of an object is written by the display function of its own class, without regard to its
ancestors. What lies deeper than `maxDisplayDepth` levels is written as an ellipsis, so that
containers that hold themselves have a text too.

* `Heap.display` — the text of an object.
-/

namespace ObjectMachine

/-- The deepest level that is still written out. -/
def maxDisplayDepth : Nat := 64

/-- Writes an object that another one contains. -/
abbrev Printer := Ref → Except Fatal String

/-- The texts of some objects, with a separator between them. -/
def displayItems (print : Printer) (items : List Ref) : Except Fatal String := do
  let texts ← items.mapM print
  return ", ".intercalate texts

/-- The text of a key and its value. -/
def displayEntry (print : Printer) (entry : Ref × Ref) : Except Fatal String := do
  let key ← print entry.1
  let value ← print entry.2
  return key ++ ": " ++ value

/-- The texts of some keys and values. -/
def displayEntries (print : Printer) (entries : List (Ref × Ref)) : Except Fatal String := do
  let texts ← entries.mapM (displayEntry print)
  return ", ".intercalate texts

/-- What a display function writes for an object; `print` writes what the object contains. Given a
payload of another kind than its own, a function leaves out what it cannot know. -/
def StrFn.run (f : StrFn) (h : Heap) (print : Printer) (r : Ref) (o : Obj) :
    Except Fatal String := do
  match f, o.payload with
  | .fixed text, _ => return text
  | .object, _ =>
    let c ← h.cls o.cls
    return "<" ++ c.name ++ " instance>"
  | .cls, _ =>
    let c ← h.cls r
    return "<class " ++ c.name ++ ">"
  | .nil, _ => return "nil"
  | .bool, .bool true => return "true"
  | .bool, _ => return "false"
  | .int, .int i => return toString i.toInt
  | .float, .float x => return Decimal.floatText x
  | .str, .str b => return Text.lossy b
  | .array, .array items =>
    let text ← displayItems print items.toList
    return "[" ++ text ++ "]"
  | .array, _ => return "[]"
  | .hash, .hash t =>
    let text ← displayEntries print t.entries.toList
    return "\x7b" ++ text ++ "\x7d"
  | .hash, _ => return "\x7b\x7d"
  | .method, .method m =>
    return "<method " ++ m.name ++ (if m.receiver.isSome then " (bound)" else "") ++ ">"
  | .method, _ => return "<method >"
  | .code, .code c => return "<code " ++ c.unit.name ++ ">"
  | .code, _ => return "<code >"
  | .frame, .frame f =>
    match ← h.payload f.method with
    | .method m => return "<frame " ++ m.name ++ ">"
    | _ => return "<frame >"
  | .frame, _ => return "<frame >"
  | .module, .module m => return "<module " ++ m.name ++ ">"
  | .module, _ => return "<module >"
  | .task, .task t =>
    return "<task #" ++ toString t.task.number ++ (if t.current then " (current)" else "") ++ ">"
  | .var, .var none => return "<var unbound>"
  | .var, .var (some v) =>
    let text ← print v
    return "<var " ++ text ++ ">"
  | .var, p => throw (.wrongKind r p.kind "a var")
  | .error, .error e =>
    match e.cause with
    | none => return "Error: " ++ e.message
    | some c =>
      let text ← print c
      return "Error: " ++ e.message ++ " (caused by " ++ text ++ ")"
  | .int, _ | .float, _ | .str, _ | .task, _ | .error, _ => return ""

namespace Heap

/-- The text of an object, written out `levels` levels deep. -/
def displayWithin (h : Heap) : Nat → Printer
  | 0, _ => .ok "..."
  | levels + 1, r => do
    let o ← h.get r
    let c ← h.cls o.cls
    match c.slots.str with
    | some f => f.run h (displayWithin h levels) r o
    | none => throw (.missingSlot c.name .str)

/-- The text of an object. What is nested already counts towards the levels. -/
def display (h : Heap) (r : Ref) : Except Fatal String :=
  h.displayWithin (maxDisplayDepth + 1 - h.nesting) r

end Heap
end ObjectMachine
