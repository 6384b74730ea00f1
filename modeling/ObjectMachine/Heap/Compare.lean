import ObjectMachine.Heap.Chain

/-!
# ObjectMachine.Heap.Compare

Comparison, equality and truth of objects.

An object equals itself. Otherwise the comparison of the left operand's class chain is asked first,
then that of the right operand's with the answer reversed; if neither has an answer the two are not
comparable. Comparison of containers goes at most `maxCompareDepth` levels down.

* `Heap.compare` — the order of two objects, if they are comparable.
* `Heap.equals` — whether they compare equal.
* `Heap.position?` — the first key of a hash that equals a key.
* `Heap.truthy` — the truth value of an object.
-/

namespace ObjectMachine

/-- The deepest level at which containers are still compared: twice what can be sent. -/
def maxCompareDepth : Nat := 2 * maxPackDepth

/-- Numbers of either kind. -/
inductive Number where
  | int (i : Int64)
  | float (x : Float)

def Number.toFloat : Number → Float
  | .int i => i.toFloat
  | .float x => x

def Payload.number? : Payload → Option Number
  | .int i => some (.int i)
  | .float x => some (.float x)
  | _ => none

/-- Order of two floats; a NaN is not comparable. -/
def compareFloats (x y : Float) : Option Ordering :=
  if x < y then some .lt
  else if x == y then some .eq
  else if y < x then some .gt
  else none

/-- Two integers compare exactly; with a float among them both are taken as floats. -/
def Number.compare : Number → Number → Option Ordering
  | .int a, .int b => some (if a < b then .lt else if a = b then .eq else .gt)
  | a, b => compareFloats a.toFloat b.toFloat

/-- Lexicographic order of byte strings. -/
def compareBytes : List UInt8 → List UInt8 → Ordering
  | [], [] => .eq
  | [], _ :: _ => .lt
  | _ :: _, [] => .gt
  | a :: as, b :: bs => if a < b then .lt else if b < a then .gt else compareBytes as bs

/-- False is below true. -/
def compareBools (a b : Bool) : Ordering :=
  if a == b then .eq else if b then .lt else .gt

/-- A comparison of objects, which may turn out fatal. -/
abbrev Comparison := Ref → Ref → Except Fatal (Option Ordering)

/-- Lexicographic order by `cmp`. A pair that is not comparable makes the lists so. -/
def compareItems (cmp : Comparison) : List Ref → List Ref → Except Fatal (Option Ordering)
  | [], [] => .ok (some .eq)
  | [], _ :: _ => .ok (some .lt)
  | _ :: _, [] => .ok (some .gt)
  | a :: as, b :: bs =>
    match cmp a b with
    | .ok (some .eq) => compareItems cmp as bs
    | r => r

/-- The place of the first key, counted from `start`, that equals `key`. -/
def positionIn (cmp : Comparison) (key : Ref) : Nat → List Ref → Except Fatal (Option Nat)
  | _, [] => .ok none
  | start, k :: rest =>
    match cmp k key with
    | .error e => .error e
    | .ok (some .eq) => .ok (some start)
    | .ok _ => positionIn cmp key (start + 1) rest

/-- Whether each entry has a partner in `t` with an equal key and an equal value. -/
def entriesWithin (cmp : Comparison) (t : HashTable) : List (Ref × Ref) → Except Fatal Bool
  | [] => .ok true
  | (k, v) :: rest =>
    match positionIn cmp k 0 t.keys.toList with
    | .error e => .error e
    | .ok none => .ok false
    | .ok (some i) =>
      match t.entries[i]? with
      | none => .ok false
      | some (_, w) =>
        match cmp v w with
        | .error e => .error e
        | .ok (some .eq) => entriesWithin cmp t rest
        | .ok _ => .ok false

/-- Hashes are equal if they map the same keys to equal values, and otherwise not comparable. -/
def compareHashes (cmp : Comparison) (s t : HashTable) : Except Fatal (Option Ordering) :=
  if s.size = t.size then
    match entriesWithin cmp t s.entries.toList with
    | .error e => .error e
    | .ok true => .ok (some .eq)
    | .ok false => .ok none
  else .ok none

/-- Applies a comparison of a class chain to two objects; `cmp` compares what they contain. -/
def CmpFn.run (f : CmpFn) (h : Heap) (cmp : Comparison) (a b : Ref) :
    Except Fatal (Option Ordering) := do
  match f with
  | .never => return none
  | .aboveInts =>
    match ← h.payload b with
    | .int _ => return some .gt
    | _ => return none
  | .unwrap =>
    match ← h.payload a with
    | .object slots =>
      match slots[0]? with
      | some x => cmp x b
      | none => return none
    | _ => return none
  | .bool =>
    match ← h.payload a with
    | .bool x =>
      match ← h.payload b with
      | .bool y => return some (compareBools x y)
      | _ => return none
    | _ => return none
  | .number =>
    match (← h.payload a).number? with
    | some x =>
      match (← h.payload b).number? with
      | some y => return x.compare y
      | none => return none
    | none => return none
  | .bytes =>
    match ← h.payload a with
    | .str x =>
      match ← h.payload b with
      | .str y => return some (compareBytes x.data.toList y.data.toList)
      | _ => return none
    | _ => return none
  | .array =>
    match ← h.payload a with
    | .array xs =>
      match ← h.payload b with
      | .array ys => compareItems cmp xs.toList ys.toList
      | _ => return none
    | _ => return none
  | .hash =>
    match ← h.payload a with
    | .hash s =>
      match ← h.payload b with
      | .hash t => compareHashes cmp s t
      | _ => return none
    | _ => return none
  | .task =>
    match ← h.payload a with
    | .task x =>
      match ← h.payload b with
      | .task y => return if x.task = y.task then some .eq else none
      | _ => return none
    | _ => return none

namespace Heap

/-- What the comparison of the class chain of `a` says of `a` and `b`. -/
def compareLeft (h : Heap) (cmp : Comparison) (a b : Ref) : Except Fatal (Option Ordering) := do
  let k ← h.classOf a
  match ← h.findSlot Slots.cmp k with
  | some f => f.run h cmp a b
  | none => return none

/-- Compares two objects and what they contain, `levels` levels deep. -/
def compareWithin (h : Heap) : Nat → Comparison
  | levels, a, b =>
    if a = b then .ok (some .eq)
    else
      match levels with
      | 0 => .ok none
      | levels + 1 =>
        match h.compareLeft (compareWithin h levels) a b with
        | .error e => .error e
        | .ok (some o) => .ok (some o)
        | .ok none =>
          match h.compareLeft (compareWithin h levels) b a with
          | .error e => .error e
          | .ok o => .ok (o.map Ordering.swap)

/-- The order of two objects; `none` if they are not comparable. What is nested already counts
towards the levels. -/
def compare (h : Heap) (a b : Ref) : Except Fatal (Option Ordering) :=
  h.compareWithin (maxCompareDepth + 1 - h.nesting) a b

/-- Equality; objects that are not comparable are unequal. -/
def equals (h : Heap) (a b : Ref) : Except Fatal Bool :=
  match h.compare a b with
  | .ok o => .ok (o == some .eq)
  | .error e => .error e

/-- The place of the first key that equals `key`. -/
def position? (h : Heap) (t : HashTable) (key : Ref) : Except Fatal (Option Nat) :=
  positionIn h.compare key 0 t.keys.toList

end Heap

/-- The truth value that a function gives to a payload. -/
def NonzeroFn.run : NonzeroFn → Payload → Bool
  | .always answer, _ => answer
  | .bool, .bool b => b
  | .int, .int i => i != 0
  | .float, .float x => x != 0.0
  | .str, .str b => b.size != 0
  | .array, .array items => items.size != 0
  | .hash, .hash t => t.size != 0
  | _, _ => false

namespace Heap

/-- The truth value of an object. -/
def truthy (h : Heap) (r : Ref) : Except Fatal Bool := do
  let o ← h.get r
  let f ← h.requireSlot .nonzero Slots.nonzero o.cls
  return f.run o.payload

end Heap
end ObjectMachine
