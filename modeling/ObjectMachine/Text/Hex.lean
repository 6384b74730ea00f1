/-!
# ObjectMachine.Text.Hex

Lower-case hexadecimal digits of a byte.
-/

namespace ObjectMachine
namespace Text

/-- The digit for a value below sixteen. -/
def hexDigit (n : Nat) : Char :=
  if n < 10 then Char.ofNat (48 + n) else Char.ofNat (87 + n)

/-- Two digits, the high one first. -/
def hexByte (b : UInt8) : String :=
  String.ofList [hexDigit (b.toNat / 16), hexDigit (b.toNat % 16)]

end Text
end ObjectMachine
