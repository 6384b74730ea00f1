import ObjectMachine.Op

/-!
# ObjectMachine.Misuse

What a code generator can do wrong with the assembler and with instruction words.

* `Misuse` — the mistakes.
* `Misuse.message` — their wording.
-/

namespace ObjectMachine

inductive Misuse where
  /-- A parameter was declared although a plain local already stands in the list. -/
  | lateParameter (name : String)
  | tooManyParameters
  | constantPoolOverflow (unit : String)
  | namePoolOverflow (unit : String)
  | unitTooLong (unit : String)
  /-- An operation with an operand was emitted without one. -/
  | operandMissing (op : Op)
  /-- An operation was emitted with an argument it does not take. -/
  | argumentRefused (op : Op)
  | notAJump (op : Op)
  | resolvedTwice (label : Nat)
  /-- A unit was finished while jumps to a label wait for its address. -/
  | unresolved (label pending : Nat) (unit : String)
  | addressTooLarge (addr : Nat)
  /-- A label that this assembler, with its count of labels, never made. -/
  | unknownLabel (label count : Nat)
deriving DecidableEq, Repr

def Misuse.message : Misuse → String
  | .lateParameter n => s!"parameter `{n}` declared after a local"
  | .tooManyParameters => "more than 255 parameters"
  | .constantPoolOverflow u => s!"constant pool overflow in `{u}`"
  | .namePoolOverflow u => s!"name pool overflow in `{u}`"
  | .unitTooLong u => s!"code unit `{u}` is too long"
  | .operandMissing op => s!"{op.name} takes an operand"
  | .argumentRefused op => s!"{op.name} does not take arguments"
  | .notAJump op => s!"{op.name} is not a jump"
  | .resolvedTwice l => s!"label {l} resolved twice"
  | .unresolved l n u => s!"label {l} has {n} unresolved jump(s) in `{u}`"
  | .addressTooLarge a => s!"jump address {a} does not fit in 24 bits"
  | .unknownLabel l n => s!"index out of bounds: the len is {n} but the index is {l}"

end ObjectMachine
