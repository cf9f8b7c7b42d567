import SeriesIngest.Binary64
import SeriesIngest.Decimal.Digits
/-! The shortest decimal that reads back to a finite value, written positionally.
The decimals that read back lie between the halfway points to the two neighbours,
ends included when the significand is even. -/
namespace SeriesIngest.Decimal

/-- A positive value `4 * m * 2 ^ (scale - 2)` with the reach of its rounding interval
in the same unit: `below` under it and `2` above it. -/
structure Interval where
  value : Nat
  below : Nat
  closed : Bool
  exponent : Int

/-- A power of two has a closer neighbour below it than above it. -/
def Interval.of (x : Binary64) : Interval where
  value := 4 * x.significand
  below := if x.fraction = 0 ∧ 1 < x.exponentField then 1 else 2
  closed := x.significand % 2 = 0
  exponent := x.scale - 2

def Interval.contains (i : Interval) (c a : Nat) : Bool :=
  let low := (i.value - i.below) * a
  let high := (i.value + 2) * a
  if i.closed then low ≤ c && c ≤ high else low < c && c < high

/-- The multiple of `10 ^ k` nearest to the value among those its interval contains,
as the factor of `10 ^ k`; a tie goes up. -/
def Interval.onGrid? (i : Interval) (k : Int) : Option Nat :=
  let unit := Nat.pow 10 (-k).toNat <<< i.exponent.toNat
  let step := Nat.pow 10 k.toNat <<< (-i.exponent).toNat
  let down := i.value * unit / step
  let up := down + 1
  let rest := i.value * unit % step
  match i.contains (down * step) unit, i.contains (up * step) unit with
  | true, true => some (if 2 * rest < step then down else up)
  | true, false => some down
  | false, true => some up
  | false, false => none

def Interval.search (i : Interval) : Nat → Int → Nat × Int
  | 0, k => ((i.value * Nat.pow 10 (-k).toNat) <<< i.exponent.toNat /
      Nat.pow 10 k.toNat <<< (-i.exponent).toNat, k)
  | tries + 1, k =>
    match i.onGrid? k with
    | some factor => (factor, k)
    | none => i.search tries (k - 1)

/-- A power of ten that is no finer than the coarsest grid with a hit: `0.30103` is just
above the decimal logarithm of two. -/
def Interval.start (i : Interval) : Int :=
  Int.fdiv ((i.value.log2 + 1 + i.exponent) * 30103) 100000 + 2

/-- Factor and power of ten of the shortest decimal of a finite positive value; seventeen
digits always read back, and the search starts at most four grids above the first. -/
def shortest (x : Binary64) : Nat × Int :=
  let i := Interval.of x
  i.search 24 i.start

def positional (factor : Nat) (k : Int) : List Char :=
  let ds := digits factor
  if 0 ≤ k then ds ++ List.replicate k.toNat '0'
  else
    let places := (-k).toNat
    if places < ds.length then ds.take (ds.length - places) ++ '.' :: ds.drop (ds.length - places)
    else '0' :: '.' :: (List.replicate (places - ds.length) '0' ++ ds)

def floatText (x : Binary64) : List Char :=
  let magnitude :=
    if !x.isFinite then (if x.isNaN then "NaN" else "inf").toList
    else if x.isZero then ['0']
    else positional (shortest x).1 (shortest x).2
  if x.isNegative && !x.isNaN then '-' :: magnitude else magnitude

end SeriesIngest.Decimal
