import ObjectMachine.Instr

/-!
# ObjectMachine.CodeUnit

Compiled method bodies.

* `CodeUnit` — instructions with their pools of constants and names, the declared locals and the
  names read from an enclosing scope.
* `Constant` — an entry of the constant pool; it may itself be a unit.
* `CodeUnit.params` — the locals that are parameters.
* `CodeUnit.bytes`, `CodeUnit.listing` — the instructions as bytes and as text.
* `CodeUnit.same` — equality of units, floats compared as numbers.
-/

namespace ObjectMachine

mutual

/-- An entry of the constant pool. -/
inductive Constant where
  | nil
  | int (value : Int64)
  | float (value : Float)
  | str (text : String)
  | code (unit : CodeUnit)

/-- A method body. The first `arity` entries of `locals` are the parameters in call order;
`freevars` are the names that a closure over the body captures. -/
structure CodeUnit where
  name : String := ""
  code : Array Instr := #[]
  consts : List Constant := []
  names : List String := []
  locals : List String := []
  freevars : List String := []
  arity : UInt8 := 0

end

instance : Inhabited Constant := ⟨.nil⟩

instance : Inhabited CodeUnit := ⟨{}⟩

namespace CodeUnit

/-- The parameters: as many locals as the arity says, or all of them. -/
def params (u : CodeUnit) : List String :=
  u.locals.take u.arity.toNat

/-- The instruction words in order, each with its lowest byte first. -/
def bytes (u : CodeUnit) : List UInt8 :=
  u.code.toList.flatMap Instr.toBytes

/-- The address, right-aligned in four columns. -/
def addressText (a : Nat) : String :=
  let digits := toString a
  String.ofList (List.replicate (4 - digits.length) ' ') ++ digits

/-- The line of an instruction at an address. -/
def line (a : Nat) (i : Instr) : String :=
  addressText a ++ ": " ++ i.text ++ "\n"

/-- The characters of one line per instruction, from the address `start` on. -/
def listingFrom : Nat → List Instr → List Char
  | _, [] => []
  | start, i :: rest => (line start i).toList ++ listingFrom (start + 1) rest

/-- The listing of the whole unit. -/
def listing (u : CodeUnit) : String :=
  String.ofList (listingFrom 0 u.code.toList)

end CodeUnit

mutual

/-- Equality of constants; a NaN differs from itself and the two zeros are equal. -/
def Constant.same : Constant → Constant → Bool
  | .nil, .nil => true
  | .int a, .int b => a == b
  | .float a, .float b => a == b
  | .str a, .str b => a == b
  | .code a, .code b => CodeUnit.same a b
  | _, _ => false

/-- Equality of units: every field agrees, constants in the sense of `Constant.same`. -/
def CodeUnit.same : CodeUnit → CodeUnit → Bool
  | ⟨name, code, consts, names, locals, freevars, arity⟩, v =>
    name == v.name && code == v.code && Constant.sameAll consts v.consts && names == v.names
      && locals == v.locals && freevars == v.freevars && arity == v.arity

def Constant.sameAll : List Constant → List Constant → Bool
  | [], [] => true
  | a :: as, b :: bs => a.same b && Constant.sameAll as bs
  | _, _ => false

end

end ObjectMachine
