/-
Module: FlatDae.Decimal.Shortest
Purpose: The text of a double. A double is written with the fewest decimal digits that read back as
  the same double, of these the nearest, always positionally: no exponent, no point without a digit
  behind it. `Interval` is the set of reals that round to the double; the digits are those of the
  nearest point of the coarsest power-of-ten grid that meets it.
Main exports: Decimal, Interval.ofFinite, Decimal.shortest, Decimal.positional, Decimal.text
-/
import FlatDae.Decimal.Binary64

namespace FlatDae

/-- The number `digits · 10 ^ exponent`. -/
structure Decimal where
  digits : Nat
  exponent : Int
deriving DecidableEq, Repr

namespace Decimal

/-- The reals that round to one double, in units of `2 ^ exponent`: from `low` to `high` around
    `value`, with both ends when `closed`. -/
structure Interval where
  low : Nat
  value : Nat
  high : Nat
  exponent : Int
  closed : Bool
deriving Repr

/-- The interval of `significand · 2 ^ exponent`. In quarters of the last place its ends are two
    away, except below a power of two, where the doubles are twice as dense and the lower end is one
    away. A half-way point rounds to the even significand, which therefore owns both ends. -/
def Interval.ofFinite (significand : Nat) (exponent : Int) : Interval :=
  let denserBelow := significand == Binary64.hiddenBit && Binary64.minExponent < exponent
  { low := 4 * significand - (if denserBelow then 1 else 2)
    value := 4 * significand
    high := 4 * significand + 2
    exponent := exponent - 2
    closed := significand % 2 == 0 }

/-- Factors `(grid, unit)` of natural numbers with `grid : unit = 10 ^ k : 2 ^ e`, so that a point
    `c · 10 ^ k` and a real `x · 2 ^ e` compare as `c * grid` and `x * unit`. -/
def factors (k e : Int) : Nat × Nat :=
  (Nat.pow 10 k.toNat * Nat.pow 2 (-e).toNat, Nat.pow 10 (-k).toNat * Nat.pow 2 e.toNat)

/-- Whether the point `c · 10 ^ k` lies in the interval. -/
def Interval.contains (i : Interval) (c : Nat) (k : Int) : Bool :=
  let (grid, unit) := factors k i.exponent
  let point := c * grid
  if i.closed then i.low * unit ≤ point && point ≤ i.high * unit
  else i.low * unit < point && point < i.high * unit

/-- The point of the grid of multiples of `10 ^ k` that lies in the interval nearest to its value,
    if any does. Only the two grid neighbours of the value can; a value half-way between them goes
    up. -/
def Interval.nearestOnGrid? (i : Interval) (k : Int) : Option Nat :=
  let (grid, unit) := factors k i.exponent
  let below := i.value * unit / grid
  let above := below + 1
  match i.contains below k, i.contains above k with
  | false, false => none
  | true, false => some below
  | false, true => some above
  | true, true =>
    if 2 * (i.value * unit % grid) < grid then some below else some above

/-- Tries the grids of multiples of `10 ^ k`, `10 ^ (k - 1)`, … and takes the first that meets the
    interval. After `steps` grids the value itself is a grid point. -/
def Interval.coarsest (i : Interval) (k : Int) : Nat → Decimal
  | 0 =>
    let (grid, unit) := factors k i.exponent
    ⟨i.value * unit / grid, k⟩
  | steps + 1 =>
    match i.nearestOnGrid? k with
    | some c => ⟨c, k⟩
    | none => i.coarsest (k - 1) steps

/-- The shortest decimal that rounds to `significand · 2 ^ exponent`, for a positive significand.
    The search starts at a power of ten above the value, which the bit length bounds (`log₁₀ 2` is
    just below 0.30103), and ends where every double of that exponent is a multiple of the grid. -/
def shortest (significand : Nat) (exponent : Int) : Decimal :=
  let top : Int := Int.fdiv (((significand.log2 : Int) + 1 + exponent) * 30103) 100000 + 2
  let bottom := min exponent 0
  (Interval.ofFinite significand exponent).coarsest top (top - bottom).toNat

/-- Positional digits, with a point only where the number has a fraction. -/
def positional (d : Decimal) : String :=
  let digits := toString d.digits
  if 0 ≤ d.exponent then
    digits ++ String.ofList (List.replicate d.exponent.toNat '0')
  else
    let places := (-d.exponent).toNat
    let padded := List.replicate (places + 1 - digits.length) '0' ++ digits.toList
    let whole := padded.length - places
    String.ofList (padded.take whole ++ '.' :: padded.drop whole)

/-- The text of a double: the sign of a zero shows, that of a non-number does not. -/
def text (x : Float) : String :=
  match Binary64.ofFloat x with
  | .nan => "NaN"
  | .infinite negative => if negative then "-inf" else "inf"
  | .finite negative significand exponent =>
    let magnitude :=
      if significand == 0 then "0" else (shortest significand exponent).positional
    if negative then "-" ++ magnitude else magnitude

end Decimal

end FlatDae
