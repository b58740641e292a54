/-!
# Shortest decimals

The decimal with the fewest digits inside an interval around a number, and among those the one
nearest to the number.

* `Interval`: an interval of rational numbers, with both ends or with neither;
* `Interval.shortest?`: the search, one grid of decimals after the other, from coarse to fine.
-/

namespace FuzzyInference

/-- The numbers from `low` to `high`, the ends included when `closed`. -/
structure Interval where
  low : Rat
  high : Rat
  closed : Bool

namespace Interval

def contains (i : Interval) (x : Rat) : Bool :=
  if i.closed then i.low ≤ x && x ≤ i.high else i.low < x && x < i.high

/-- The least power of ten above a positive number, as an exponent. The difference of the binary
logarithms gives it up to a few steps, which are then tried in turn. -/
def magnitude (x : Rat) : Int :=
  let bits : Int := (x.num.natAbs.log2 : Int) - x.den.log2 - 1
  let start := bits * 30103 / 100000 - 1
  ((List.range 5).map fun (i : Nat) => start + i).find? (x < (10 : Rat) ^ ·) |>.getD (start + 5)

/-- Of the two multiples of `unit` next to `x`, the one inside the interval, or the nearer one
when both are. Halfway between the two, the upper one. -/
def nearest? (i : Interval) (x unit : Rat) : Option Nat :=
  let below := (x / unit).floor.toNat
  let lower := (below : Rat) * unit
  let upper := ((below + 1 : Nat) : Rat) * unit
  match i.contains lower, i.contains upper with
  | true, true => some (if x - lower < upper - x then below else below + 1)
  | true, false => some below
  | false, true => some (below + 1)
  | false, false => none

/-- Digits and exponent of the shortest decimal in the interval around the positive number `x`,
tried with one digit, with two, and so on up to `most`. -/
def shortest? (i : Interval) (x : Rat) (most : Nat) : Option (Nat × Int) :=
  let top := magnitude x
  (List.range most).findSome? fun n =>
    let exponent : Int := top - (n + 1 : Nat)
    (i.nearest? x ((10 : Rat) ^ exponent)).map (·, exponent)

end Interval

end FuzzyInference
