/-!
# ObjectMachine.Decimal.Read

Numbers written in decimal.

* `natural? cs` — one or more digits.
* `integer? cs` — an optional sign and digits, in the range of 64-bit integers.
* `size? cs` — an optional plus sign and digits, below `2 ^ 64`.
* `float? cs` — a decimal fraction with an optional exponent, or a name of a special value,
  rounded to the nearest double.
-/

namespace ObjectMachine
namespace Decimal

/-- The value of an ASCII digit. -/
def digit? (c : Char) : Option Nat :=
  if '0' ≤ c && c ≤ '9' then some (c.toNat - 48) else none

/-- Continues the number `acc` with the digits of `cs`; `none` if anything else is met. -/
def digitsFrom : Nat → List Char → Option Nat
  | acc, [] => some acc
  | acc, c :: cs =>
    match digit? c with
    | some d => digitsFrom (10 * acc + d) cs
    | none => none

/-- One or more ASCII digits. -/
def natural? (cs : List Char) : Option Nat :=
  if cs.isEmpty then none else digitsFrom 0 cs

/-- Splits off a sign: whether it is a minus, and what follows it. -/
def sign (cs : List Char) : Bool × List Char :=
  match cs with
  | '-' :: rest => (true, rest)
  | '+' :: rest => (false, rest)
  | _ => (false, cs)

/-- An optional sign and one or more digits that denote a 64-bit signed integer. -/
def integer? (cs : List Char) : Option Int64 :=
  let (minus, rest) := sign cs
  match natural? rest with
  | none => none
  | some n =>
    let z : Int := if minus then -(n : Int) else n
    if Int64.minValue.toInt ≤ z && z ≤ Int64.maxValue.toInt then some (Int64.ofInt z) else none

/-- An optional plus sign and one or more digits that denote a number below `2 ^ 64`. -/
def size? (cs : List Char) : Option Nat :=
  let rest :=
    match cs with
    | '+' :: rest => rest
    | _ => cs
  match natural? rest with
  | some n => if n < UInt64.size then some n else none
  | none => none

/-- The digits at the front, and the rest. -/
def takeDigits (cs : List Char) : List Char × List Char :=
  cs.span fun c => (digit? c).isSome

/-- The exponent mark, an optional sign and digits; no exponent is zero. -/
def exponent? (cs : List Char) : Option Int :=
  match cs with
  | [] => some 0
  | e :: rest =>
    if e == 'e' || e == 'E' then
      let (minus, ds) := sign rest
      (natural? ds).map fun n => if minus then -(n : Int) else n
    else none

/-- The double nearest to `mantissa * 10 ^ exponent`. `width` is the number of digits of the
mantissa from the first that is not zero; past the range of doubles on either side the exponent
itself is not needed. -/
def scale (mantissa width : Nat) (exponent : Int) : Float :=
  if mantissa == 0 then 0.0
  else if exponent + width > 400 then 1.0 / 0.0
  else if exponent + width < -400 then 0.0
  else if exponent < 0 then Float.ofScientific mantissa true exponent.natAbs
  else Float.ofScientific mantissa false exponent.natAbs

/-- A number without a sign: digits with at most one point and at least one digit, then an
optional exponent. -/
def magnitude? (cs : List Char) : Option Float :=
  let (whole, rest) := takeDigits cs
  let (fraction, rest) :=
    match rest with
    | '.' :: rest => takeDigits rest
    | _ => ([], rest)
  let digits := whole ++ fraction
  let significant := digits.dropWhile (· == '0')
  match natural? digits, exponent? rest with
  | some m, some e => some (scale m significant.length (e - fraction.length))
  | _, _ => none

/-- The names of the special values, in any case. -/
def special? (cs : List Char) : Option Float :=
  let word := String.ofList (cs.map Char.toLower)
  if word == "inf" || word == "infinity" then some (1.0 / 0.0)
  else if word == "nan" then some (0.0 / 0.0)
  else none

/-- An optional sign, then a special value or a decimal number. -/
def float? (cs : List Char) : Option Float :=
  let (minus, rest) := sign cs
  match special? rest <|> magnitude? rest with
  | some x => some (if minus then -x else x)
  | none => none

end Decimal
end ObjectMachine
