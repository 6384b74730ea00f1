import ObjectMachine.CodeUnit

/-!
# ObjectMachine.Assembler

Building a code unit instruction by instruction, with labels for jumps.

A jump to a label whose address is not known yet is emitted with address zero and its position is
noted with the label; resolving the label gives it the current address and patches the noted jumps.

Whether an operation has the format that is emitted is a debug assertion: a build may leave it out.
The functions that emit take `checks`, which says whether the build has it. All other refusals are
made in every build.

* `Assembler` — the unit under construction and its labels.
* `Command` — one step of construction.
* `Assembler.apply` — performs a step; the number it answers is the pool index, position, label or
  address that the step made, or the count it brought about.
* `Assembler.finish` — the finished unit; refused while a jump waits for its label.
-/

namespace ObjectMachine

/-- A label: its address once resolved, and the positions of the jumps that wait for it. -/
structure Label where
  addr : Option Nat := none
  pending : List Nat := []
deriving DecidableEq, Repr, Inhabited

structure Assembler where
  unit : CodeUnit
  labels : Array Label := #[]

inductive Command where
  /-- Declares a parameter. -/
  | parameter (name : String)
  /-- Declares a local unless it is declared already. -/
  | declare (name : String)
  /-- Declares a captured name unless it is declared already. -/
  | capture (name : String)
  /-- Adds a constant to the pool. -/
  | constant (c : Constant)
  /-- Finds or adds a name in the pool. -/
  | name (n : String)
  | emit (op : Op)
  | emitArg (op : Op) (arg : UInt8)
  | pushConst (c : Constant)
  | pushName (n : String)
  | storeName (n : String)
  | getAttr (n : String)
  | call (argc : UInt8)
  | makeClosure (unit : CodeUnit)
  /-- Makes a new label. -/
  | label
  | jump (op : Op) (label : Nat)
  | resolve (label : Nat)

namespace Assembler

/-- An assembler for an empty unit. -/
def start (name : String) : Assembler :=
  { unit := { name := name } }

/-- The address of the next instruction. -/
def here (a : Assembler) : Nat :=
  a.unit.code.size

/-- The most entries of a pool, so that an index fits in a byte. -/
def poolLimit : Nat := 256

def parameter (a : Assembler) (name : String) : Except Misuse (Nat × Assembler) :=
  if a.unit.locals.length ≠ a.unit.arity.toNat then .error (.lateParameter name)
  else if a.unit.arity = 255 then .error .tooManyParameters
  else
    let unit := { a.unit with locals := a.unit.locals ++ [name], arity := a.unit.arity + 1 }
    .ok (unit.arity.toNat, { a with unit := unit })

def declare (a : Assembler) (name : String) : Nat × Assembler :=
  let locals := if a.unit.locals.contains name then a.unit.locals else a.unit.locals ++ [name]
  (locals.length, { a with unit := { a.unit with locals := locals } })

def capture (a : Assembler) (name : String) : Nat × Assembler :=
  let free := if a.unit.freevars.contains name then a.unit.freevars else a.unit.freevars ++ [name]
  (free.length, { a with unit := { a.unit with freevars := free } })

/-- Adds a constant at the end of its pool. -/
def constant (a : Assembler) (c : Constant) : Except Misuse (Nat × Assembler) :=
  let index := a.unit.consts.length
  if index < poolLimit then
    .ok (index, { a with unit := { a.unit with consts := a.unit.consts ++ [c] } })
  else .error (.constantPoolOverflow a.unit.name)

/-- The index of a name, which is added to its pool if it is new. -/
def name (a : Assembler) (n : String) : Except Misuse (Nat × Assembler) :=
  match a.unit.names.idxOf? n with
  | some index => .ok (index, a)
  | none =>
    let index := a.unit.names.length
    if index < poolLimit then
      .ok (index, { a with unit := { a.unit with names := a.unit.names ++ [n] } })
    else .error (.namePoolOverflow a.unit.name)

/-- Appends an instruction and answers its position. -/
def push (a : Assembler) (i : Instr) : Except Misuse (Nat × Assembler) :=
  let position := a.unit.code.size
  if position ≤ Instr.maxAddr then
    .ok (position, { a with unit := { a.unit with code := a.unit.code.push i } })
  else .error (.unitTooLong a.unit.name)

/-- Emits an operation without operand. An operation that has one is refused if the build checks
formats; else its operand field is zero. -/
def emit (a : Assembler) (op : Op) (checks : Bool := true) : Except Misuse (Nat × Assembler) :=
  if checks = true ∧ op.format ≠ .none then .error (.operandMissing op)
  else a.push (.simple op)

/-- Emits an operation with one argument. An operation of another format is refused if the build
checks formats; else the argument is put in its operand field. -/
def emitArg (a : Assembler) (op : Op) (arg : UInt8) (checks : Bool := true) :
    Except Misuse (Nat × Assembler) :=
  if checks = true ∧ op.format ≠ .args then .error (.argumentRefused op)
  else a.push (.args op arg 0 0)

/-- Adds a constant and emits `op` with its index. -/
def emitConst (a : Assembler) (op : Op) (c : Constant) (checks : Bool := true) :
    Except Misuse (Nat × Assembler) :=
  match a.constant c with
  | .ok (index, a) => a.emitArg op (UInt8.ofNat index) checks
  | .error e => .error e

/-- Interns a name and emits `op` with its index. -/
def emitName (a : Assembler) (op : Op) (n : String) (checks : Bool := true) :
    Except Misuse (Nat × Assembler) :=
  match a.name n with
  | .ok (index, a) => a.emitArg op (UInt8.ofNat index) checks
  | .error e => .error e

def newLabel (a : Assembler) : Nat × Assembler :=
  (a.labels.size, { a with labels := a.labels.push {} })

/-- Emits a jump to a label. If the label is still open the position is noted for patching. -/
def jump (a : Assembler) (op : Op) (label : Nat) : Except Misuse (Nat × Assembler) :=
  if op.isJump then
    match a.labels[label]? with
    | none => .error (.unknownLabel label a.labels.size)
    | some l =>
      match l.addr with
      | some addr =>
        match Instr.addr? op addr with
        | .ok i => a.push i
        | .error e => .error e
      | none =>
        match Instr.addr? op 0 with
        | .error e => .error e
        | .ok i =>
          match a.push i with
          | .error e => .error e
          | .ok (position, a) =>
            let l := { l with pending := l.pending ++ [position] }
            .ok (position, { a with labels := a.labels.setIfInBounds label l })
  else .error (.notAJump op)

/-- Gives the address `addr` to the instructions at the positions. -/
def patch (addr : Nat) : List Nat → Array Instr → Except Misuse (Array Instr)
  | [], code => .ok code
  | p :: rest, code =>
    match code[p]? with
    | none => patch addr rest code
    | some i =>
      match i.withAddr? addr with
      | .ok i => patch addr rest (code.setIfInBounds p i)
      | .error e => .error e

/-- Binds a label to the current address and patches the jumps that wait for it. -/
def resolve (a : Assembler) (label : Nat) : Except Misuse (Nat × Assembler) :=
  match a.labels[label]? with
  | none => .error (.unknownLabel label a.labels.size)
  | some l =>
    match l.addr with
    | some _ => .error (.resolvedTwice label)
    | none =>
      let addr := a.here
      match patch addr l.pending a.unit.code with
      | .error e => .error e
      | .ok code =>
        let labels := a.labels.setIfInBounds label { addr := some addr, pending := [] }
        .ok (addr, { unit := { a.unit with code := code }, labels := labels })

def apply (a : Assembler) (c : Command) (checks : Bool := true) :
    Except Misuse (Nat × Assembler) :=
  match c with
  | .parameter n => a.parameter n
  | .declare n => .ok (a.declare n)
  | .capture n => .ok (a.capture n)
  | .constant c => a.constant c
  | .name n => a.name n
  | .emit op => a.emit op checks
  | .emitArg op arg => a.emitArg op arg checks
  | .pushConst c => a.emitConst .pushConst c checks
  | .pushName n => a.emitName .pushName n checks
  | .storeName n => a.emitName .storeName n checks
  | .getAttr n => a.emitName .getAttr n checks
  | .call argc => a.emitArg .call argc checks
  | .makeClosure u => a.emitConst .makeClosure (.code u) checks
  | .label => .ok a.newLabel
  | .jump op l => a.jump op l
  | .resolve l => a.resolve l

/-- Performs the commands in order. -/
def applyAll (a : Assembler) (cs : List Command) (checks : Bool := true) :
    Except Misuse Assembler :=
  match cs with
  | [] => .ok a
  | c :: cs =>
    match a.apply c checks with
    | .ok (_, a) => a.applyAll cs checks
    | .error e => .error e

/-- The address of a label, once it is resolved. -/
def labelAddr? (a : Assembler) (label : Nat) : Except Misuse (Option Nat) :=
  match a.labels[label]? with
  | some l => .ok l.addr
  | none => .error (.unknownLabel label a.labels.size)

/-- The first label, counted from `index`, that jumps still wait for. -/
def firstPending? : Nat → List Label → Option (Nat × Nat)
  | _, [] => none
  | index, l :: rest =>
    if l.pending.isEmpty then firstPending? (index + 1) rest else some (index, l.pending.length)

/-- The finished unit. -/
def finish (a : Assembler) : Except Misuse CodeUnit :=
  match firstPending? 0 a.labels.toList with
  | some (label, count) => .error (.unresolved label count a.unit.name)
  | none => .ok a.unit

/-- The unit that the commands build. -/
def assemble (name : String) (cs : List Command) (checks : Bool := true) :
    Except Misuse CodeUnit :=
  match (start name).applyAll cs checks with
  | .ok a => a.finish
  | .error e => .error e

end Assembler
end ObjectMachine
