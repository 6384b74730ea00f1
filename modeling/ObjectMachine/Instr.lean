import ObjectMachine.Misuse
import ObjectMachine.Text.Hex

/-!
# ObjectMachine.Instr

Instruction words: the operation in the high byte, the operand field in the low 24 bits.

The field is read as one address, or as three 8-bit operands, the first in the highest bits.

* `Instr.simple`, `Instr.args`, `Instr.addr?` — words from their parts.
* `Instr.op?`, `Instr.operand`, `Instr.arg1`, … — the parts of a word.
* `Instr.withAddr?` — the word with another address.
* `Instr.toBytes`, `Instr.ofBytes` — the four bytes of a word, the lowest first.
* `Instr.text` — one line of a listing.
-/

namespace ObjectMachine

structure Instr where
  word : UInt32
deriving DecidableEq, Repr, Inhabited

namespace Instr

/-- The largest address. -/
def maxAddr : Nat := 0xFFFFFF

/-- The word of an operation without operand. -/
def simple (op : Op) : Instr :=
  ⟨op.byte.toUInt32 <<< 24⟩

/-- The word of an operation with three 8-bit operands. -/
def args (op : Op) (a₁ a₂ a₃ : UInt8) : Instr :=
  ⟨op.byte.toUInt32 <<< 24 ||| a₁.toUInt32 <<< 16 ||| a₂.toUInt32 <<< 8 ||| a₃.toUInt32⟩

/-- The word of an operation with an address. -/
def addr? (op : Op) (a : Nat) : Except Misuse Instr :=
  if a ≤ maxAddr then .ok ⟨op.byte.toUInt32 <<< 24 ||| UInt32.ofNat a⟩
  else .error (.addressTooLarge a)

def opcode (i : Instr) : UInt8 :=
  (i.word >>> 24).toUInt8

/-- The operation; `none` for a byte outside the table. -/
def op? (i : Instr) : Option Op :=
  Op.ofByte? i.opcode

/-- The operand field as one address. -/
def operand (i : Instr) : Nat :=
  (i.word &&& 0xFFFFFF).toNat

def arg1 (i : Instr) : UInt8 := (i.word >>> 16).toUInt8

def arg2 (i : Instr) : UInt8 := (i.word >>> 8).toUInt8

def arg3 (i : Instr) : UInt8 := i.word.toUInt8

/-- The same operation with the address `a`. -/
def withAddr? (i : Instr) (a : Nat) : Except Misuse Instr :=
  if a ≤ maxAddr then .ok ⟨i.word &&& 0xFF000000 ||| UInt32.ofNat a⟩
  else .error (.addressTooLarge a)

/-- The four bytes of the word, the lowest first. -/
def toBytes (i : Instr) : List UInt8 :=
  [i.word.toUInt8, (i.word >>> 8).toUInt8, (i.word >>> 16).toUInt8, (i.word >>> 24).toUInt8]

/-- The word with the given bytes, the lowest first. -/
def ofBytes (b₀ b₁ b₂ b₃ : UInt8) : Instr :=
  ⟨b₀.toUInt32 ||| b₁.toUInt32 <<< 8 ||| b₂.toUInt32 <<< 16 ||| b₃.toUInt32 <<< 24⟩

/-- The mnemonic with the operand that the operation uses. -/
def text (i : Instr) : String :=
  match i.op? with
  | none => "<bad opcode 0x" ++ Text.hexByte i.opcode ++ ">"
  | some op =>
    match op.format with
    | .none => op.mnemonic
    | .args => op.mnemonic ++ " " ++ toString i.arg1.toNat
    | .addr => op.mnemonic ++ " @" ++ toString i.operand

end Instr
end ObjectMachine
