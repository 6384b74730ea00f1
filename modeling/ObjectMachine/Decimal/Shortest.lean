/-!
# ObjectMachine.Decimal.Shortest

The shortest decimal that reads back as a given double.

A finite double is `m * 2 ^ q`. The reals that round to it form an interval around it, closed
when `m` is even. Among the decimals `d * 10 ^ k` in the interval, `shortest` finds one with the
fewest digits, and of those the nearest to the value.

* `Binary` — a positive double as `m * 2 ^ q`, with the width of its lower neighbour gap.
* `candidate? b k` — the best multiple of `10 ^ k` in the interval of `b`.
* `shortest b` — digits and exponent of the shortest decimal.
-/

namespace ObjectMachine
namespace Decimal

/-- A positive double `m * 2 ^ q`. `narrow` says that the double below is only half as far away
as the one above, which is so just above a power of two. -/
structure Binary where
  m : Nat
  q : Int
  narrow : Bool
deriving DecidableEq, Repr

/-- The value of the bits of a positive finite double. -/
def Binary.ofBits (bits : UInt64) : Binary :=
  let raw : Nat := bits.toNat
  let fraction : Nat := raw % (1 <<< 52)
  let biased : Nat := raw / (1 <<< 52) % (1 <<< 11)
  if biased == 0 then ⟨fraction, -1074, false⟩
  else ⟨fraction + (1 <<< 52), (biased : Int) - 1075, fraction == 0 && biased > 1⟩

/-- The interval of reals that round to a double, over a common denominator: four times the value
is `value / den`, the ends are `low / den` and `high / den`, in units of `10 ^ k`. -/
structure Window where
  low : Nat
  value : Nat
  high : Nat
  den : Nat
  closed : Bool
deriving DecidableEq, Repr

/-- The interval of `b` measured in units of `10 ^ k`. -/
def Binary.window (b : Binary) (k : Int) : Window :=
  let up := if 0 ≤ b.q then Nat.pow 2 b.q.natAbs else 1
  let down := if 0 ≤ b.q then 1 else Nat.pow 2 b.q.natAbs
  let unit := if 0 ≤ k then Nat.pow 10 k.natAbs else 1
  let lift := if 0 ≤ k then 1 else Nat.pow 10 k.natAbs
  let f := up * lift
  { low := (4 * b.m - (if b.narrow then 1 else 2)) * f
    value := 4 * b.m * f
    high := (4 * b.m + 2) * f
    den := 4 * down * unit
    closed := b.m % 2 == 0 }

/-- Whether the integer `d` lies in the interval. -/
def Window.holds (w : Window) (d : Nat) : Bool :=
  let n := d * w.den
  if w.closed then w.low ≤ n && n ≤ w.high else w.low < n && n < w.high

/-- The integer in the interval that is nearest to the value, among its two neighbours; a tie goes
to the even one. -/
def Window.best? (w : Window) : Option Nat :=
  let d := w.value / w.den
  let below := w.value - d * w.den
  let above := (d + 1) * w.den - w.value
  match w.holds d, w.holds (d + 1) with
  | true, true =>
    if below < above then some d
    else if above < below then some (d + 1)
    else if d % 2 == 0 then some d else some (d + 1)
  | true, false => some d
  | false, true => some (d + 1)
  | false, false => none

/-- The best multiple of `10 ^ k` that reads back as `b`. -/
def candidate? (b : Binary) (k : Int) : Option Nat :=
  (b.window k).best?

/-- The first unit, from `10 ^ k` downwards, with a multiple that reads back. -/
def search (b : Binary) : Nat → Int → Nat × Int
  | 0, k => (b.m, k)
  | fuel + 1, k =>
    match candidate? b k with
    | some d => (d, k)
    | none => search b fuel (k - 1)

/-- Drops trailing zeros of the digits, raising the exponent. -/
def stripZeros : Nat → Nat × Int → Nat × Int
  | 0, r => r
  | fuel + 1, (d, k) => if d % 10 == 0 && d != 0 then stripZeros fuel (d / 10, k + 1) else (d, k)

/-- Digits and exponent of the shortest decimal that reads back as `b`: the coarsest unit with a
multiple in the interval, and the nearest such multiple. The search starts above the value. -/
def shortest (b : Binary) : Nat × Int :=
  let bits := (b.m.log2 : Int) + b.q
  let start := (bits * 30103) / 100000 + 2
  stripZeros 40 (search b 40 start)

end Decimal
end ObjectMachine
