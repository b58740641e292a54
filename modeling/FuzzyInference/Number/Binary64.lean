import FuzzyInference.Number.Scalar

/-!
# Binary64 scalars

The arithmetic that runs: 64-bit floating point, every operation rounded to nearest.

* `Numeral.toBinary64`: a written number rounded to the nearest value, to infinity when it is too
  large and to zero when it is too small.
-/

namespace FuzzyInference

namespace Numeral

/-- The value nearest to `digits * 10 ^ exponent`. Far beyond the range of the format the answer
is known from the size alone, so that a long exponent costs no long division: the quotient
`3 / 10` is just below, and `302 / 1000` just above, the number of decimal digits to a bit. -/
def roundDecimal (digits : Nat) (exponent : Int) : Float :=
  let bits : Int := digits.log2
  if digits = 0 || exponent + (bits + 1) * 302 / 1000 < -330 then 0
  else if exponent + bits * 3 / 10 > 310 then 1 / 0
  else Float.ofScientific digits (exponent < 0) exponent.natAbs

/-- The value nearest to a written number. A minus sign in front of zero is kept. -/
def toBinary64 : Numeral → Float
  | .decimal negative digits exponent =>
    let magnitude := roundDecimal digits exponent
    if negative then -magnitude else magnitude
  | .infinity negative => if negative then -1 / 0 else 1 / 0
  | .undefined => 0 / 0

end Numeral

instance : Scalar Float where
  zero := 0
  one := 1
  ofNat := Float.ofNat
  ofNumeral := Numeral.toBinary64
  posInf := 1 / 0
  negInf := -1 / 0
  tolerance := 1e-9
  isFinite := Float.isFinite
  floor? x := if 0 ≤ x && x < 18446744073709551616 then some x.toUInt64.toNat else none
  decidableLE := inferInstance
  decidableLT := inferInstance

end FuzzyInference
