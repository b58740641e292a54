import FuzzyInference.Number.Scalar
import FuzzyInference.Number.Shortest

/-!
# Number literals

How a scalar is written: with the fewest digits that read back to it.

* `Literal`: scalars that can be written;
* `Binary64.neighbourhood`: the numbers that round to a given value, from its bits;
* `Binary64.write`: plain from `0.0001` up to `10 ^ 16`, with an exponent outside that range.
-/

namespace FuzzyInference

class Literal (α : Type) where
  write : α → String

structure Layout where
  /-- The least and the greatest place of the point, counted from the first digit, at which the
  plain form is used. -/
  leastPlain : Int
  greatestPlain : Int
  /-- The mark in front of the exponent. -/
  mark : String

namespace Layout

/-- Plain form: `point` digits stand before the point, and there is one on each side of it. -/
def plain (digits : String) (point : Int) : String :=
  let count : Int := digits.length
  if point ≤ 0 then "0." ++ "".pushn '0' point.natAbs ++ digits
  else if point < count then
    String.ofList (digits.toList.take point.toNat) ++ "." ++
      String.ofList (digits.toList.drop point.toNat)
  else digits ++ "".pushn '0' (point - count).toNat ++ ".0"

/-- Exponent form: one digit before the point, and no point when it is the only one. -/
def scientific (layout : Layout) (digits : String) (point : Int) : String :=
  let fraction := digits.toList.drop 1
  String.ofList (digits.toList.take 1) ++
    (if fraction.isEmpty then "" else "." ++ String.ofList fraction) ++
    layout.mark ++ toString (point - 1)

/-- Drops the zeros at the end of a number. -/
def stripZeros (digits : String) : String :=
  String.ofList (digits.toList.reverse.dropWhile (· = '0')).reverse

/-- Writes `digits * 10 ^ exponent`, for digits that do not vanish. -/
def write (layout : Layout) (digits : Nat) (exponent : Int) : String :=
  let text := toString digits
  let point : Int := text.length + exponent
  if layout.leastPlain ≤ point && point ≤ layout.greatestPlain then plain (stripZeros text) point
  else layout.scientific (stripZeros text) point

end Layout

namespace Binary64

/-- The finite value with these bits, without its sign, and the numbers that round to it: up to
halfway to the neighbours, the ends included when the significand is even. Below a power of two
the neighbour is half as far away as above it. -/
def neighbourhood (bits : UInt64) : Rat × Interval :=
  let field := (bits >>> 52 &&& 0x7FF).toNat
  let fraction := (bits &&& 0xFFFFFFFFFFFFF).toNat
  let significand := if field = 0 then fraction else 0x10000000000000 + fraction
  let unit : Rat := (2 : Rat) ^ ((max field 1 : Nat) - 1075 : Int)
  let value := significand * unit
  let below := if fraction = 0 && 1 < field then unit / 4 else unit / 2
  (value, ⟨value - below, value + unit / 2, significand % 2 = 0⟩)

/-- Plain from `0.0001` up to sixteen digits before the point. -/
def layout : Layout := ⟨-3, 16, "e"⟩

/-- All the digits of a number whose denominator is a power of two. -/
def exactDecimal (x : Rat) : Nat × Int :=
  (x.num.natAbs * Nat.pow 5 x.den.log2, -(x.den.log2 : Int))

/-- Writes the size of a finite value. Seventeen digits are enough for every value; were they
not, all of its digits would be written. -/
def writeMagnitude (bits : UInt64) : String :=
  let (value, interval) := neighbourhood bits
  if value = 0 then "0.0"
  else
    let (digits, exponent) := (interval.shortest? value 17).getD (exactDecimal value)
    layout.write digits exponent

/-- Writes a value. Only an undefined one has no sign. -/
def write (x : Float) : String :=
  let sign := if x.toBits < 0x8000000000000000 then "" else "-"
  if x.isNaN then "NaN"
  else if x.isInf then sign ++ "inf"
  else sign ++ writeMagnitude x.toBits

end Binary64

instance : Literal Float := ⟨Binary64.write⟩

end FuzzyInference
