import ObjectMachine.Decimal.Shortest

/-!
# ObjectMachine.Decimal.Notation

How a double is written: the shortest digits, positionally while the number of places is small and
with an exponent otherwise.

* `Layout` — the decisions of the format.
* `floatText x` — the text of `x`.
-/

namespace ObjectMachine
namespace Decimal

/-- Which numbers are written positionally: the decimal point stands at most `places` digits to the
right of the first digit, or at most `zeros` places to its left. -/
structure Layout where
  places : Int
  zeros : Int
deriving DecidableEq, Repr

/-- Up to sixteen places before the point and four zeros after it. -/
def layout : Layout := ⟨16, 4⟩

/-- The exponent, after its mark. -/
def exponentText (e : Int) : List Char :=
  'e' :: (toString e).toList

/-- Writes the digits `ds` with the point after the first `point` of them. -/
def arrange (l : Layout) (ds : List Char) (point : Int) : List Char :=
  let width : Int := ds.length
  if width ≤ point ∧ point ≤ l.places then
    ds ++ List.replicate (point - width).natAbs '0' ++ ['.', '0']
  else if 0 < point ∧ point ≤ l.places then
    ds.take point.natAbs ++ '.' :: ds.drop point.natAbs
  else if -l.zeros ≤ point ∧ point ≤ 0 then
    '0' :: '.' :: List.replicate point.natAbs '0' ++ ds
  else
    match ds with
    | [] => exponentText (point - 1)
    | [d] => d :: exponentText (point - 1)
    | d :: rest => d :: '.' :: rest ++ exponentText (point - 1)

/-- The text of a positive finite double. -/
def magnitudeText (bits : UInt64) : List Char :=
  let (d, k) := shortest (Binary.ofBits bits)
  let ds := (toString d).toList
  arrange layout ds ((ds.length : Int) + k)

/-- The text of a double: `NaN`, `inf`, `-inf`, or a decimal that reads back as the same double. -/
def floatText (x : Float) : String :=
  let bits := x.toBits
  let minus := bits.toNat / 0x8000000000000000 == 1
  let body := bits.toNat % 0x8000000000000000
  if body > 0x7FF0000000000000 then "NaN"
  else
    let text :=
      if body == 0x7FF0000000000000 then ['i', 'n', 'f']
      else if body == 0 then ['0', '.', '0']
      else magnitudeText (UInt64.ofNat body)
    String.ofList (if minus then '-' :: text else text)

end Decimal
end ObjectMachine
