import ObjectMachine.Dispatch
import ObjectMachine.Ref
import ObjectMachine.Text.Hex

/-!
# ObjectMachine.Failure

The ways in which a computation fails.

* `Error` — failures that a program can recover from; each becomes a raised value.
* `Fatal` — broken invariants, which end the whole system.
* `Stop` — either of them, or the loss of the host itself.
* `Error.message`, `Fatal.message` — their wording.
-/

namespace ObjectMachine

/-- Why a value cannot be copied to another task. -/
inductive PackError where
  | unsendable (cls : String)
  | tooDeep
deriving DecidableEq, Repr

/-- Deepest nesting of a value that is copied to another task. -/
def maxPackDepth : Nat := 256

def PackError.message : PackError → String
  | .unsendable c => s!"{c} values cannot be sent between tasks"
  | .tooDeep => s!"value nests deeper than {maxPackDepth} levels"

inductive Error where
  | noAttribute (cls name : String)
  | noItem (cls key : String)
  | indexOutOfRange (index : Int64) (len : Nat)
  | typeMismatch (expected found : String)
  | divisionByZero
  | notComparable (left right : String)
  | unbound (name : String)
  | arity (method : String) (expected got : Nat)
  | notInstantiable (cls : String)
  | stackOverflow (frames : Nat)
  | noModule (name : String)
  | pack (e : PackError)
  | joinSelf
  | joinMain
  /-- A raised value on its way to whoever catches it. -/
  | panic (value : Ref)
deriving DecidableEq, Repr

def Error.message : Error → String
  | .noAttribute c n => s!"{c} has no attribute `{n}`"
  | .noItem c k => s!"{c} has no item {k}"
  | .indexOutOfRange i n => s!"index {i.toInt} out of range for length {n}"
  | .typeMismatch e f => s!"type mismatch: expected {e}, found {f}"
  | .divisionByZero => "division by zero"
  | .notComparable l r => s!"{l} is not comparable with {r}"
  | .unbound n => s!"unbound name `{n}`"
  | .arity m e g => s!"`{m}` expects {e} argument(s), got {g}"
  | .notInstantiable c => s!"{c} cannot be instantiated"
  | .stackOverflow n => s!"stack overflow ({n} frames)"
  | .noModule n => s!"module `{n}` not found"
  | .pack e => e.message
  | .joinSelf => "a task cannot join itself"
  | .joinMain => "the main task cannot be joined"
  | .panic _ => "panic"

inductive Fatal where
  /-- A reference whose object is gone. -/
  | collected (r : Ref)
  /-- A reference into another heap. -/
  | foreign (r : Ref) (heap : Nat)
  /-- An object of one kind where another is required. -/
  | wrongKind (r : Ref) (kind required : String)
  | bindsNoMethod (r : Ref) (kind : String)
  | missingSlot (cls : String) (slot : Slot)
  | invalidOpcode (byte : UInt8) (unit : String)
  | stackUnderflow (unit : String) (ip : Nat)
  /-- An operand outside of the operand stack. -/
  | operandRange (count height : Nat)
  | constantRange (index : UInt8) (unit : String)
  | nameRange (index : UInt8) (unit : String)
  | noActiveFrame
  | taskDied (number : Nat)
  | noOutcome (number : Nat)
deriving DecidableEq, Repr

def Fatal.message : Fatal → String
  | .collected r => s!"{r.text} refers to a collected object"
  | .foreign r h => s!"{r.text} belongs to heap {r.heap} but was used in heap {h}"
  | .wrongKind r k q => s!"{r.text} is a {k} where {q} was required"
  | .bindsNoMethod r k => s!"bind: {r.text} is a {k}"
  | .missingSlot c s => s!"class {c} does not define the {s.text} operator"
  | .invalidOpcode b u => s!"invalid opcode 0x{Text.hexByte b} in `{u}`"
  | .stackUnderflow u ip => s!"operand stack underflow in `{u}` at {ip}"
  | .operandRange n h => s!"range of {n} operands out of range for stack of height {h}"
  | .constantRange i u => s!"constant {i.toNat} out of range in `{u}`"
  | .nameRange i u => s!"name {i.toNat} out of range in `{u}`"
  | .noActiveFrame => "no active frame"
  | .taskDied n => s!"task {n} died from an internal panic"
  | .noOutcome n => s!"task {n} exited without an outcome"

/-- Why a computation stops without a value. -/
inductive Stop where
  | raised (e : Error)
  | fatal (f : Fatal)
  /-- The host cannot go on: it was asked for more memory than can be addressed, or a hook was
  given arguments it does not take. -/
  | crashed
deriving DecidableEq, Repr

end ObjectMachine
