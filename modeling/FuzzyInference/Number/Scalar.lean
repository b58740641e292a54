import FuzzyInference.Number.Numeral

/-!
# Scalars

The arithmetic that degrees and crisp values are computed in. Every definition of the library
is over any `Scalar`, so the same text runs in binary64 and can be reasoned about in exact
arithmetic.

* `Scalar`: the operations, the two infinities and what a written number stands for;
* `Scalar.least`, `Scalar.greatest`: the smaller and the larger of two, passing over an undefined
  operand;
* `Scalar.midpoint`, `Scalar.sampleable`: the middle of a range, and whether it can be sampled.
-/

namespace FuzzyInference

/-- Numbers with two infinities, in which a result may be undefined. `==` is the comparison of
values: an undefined result differs from itself. -/
class Scalar (α : Type) extends Zero α, One α, Add α, Sub α, Mul α, Div α, LE α, LT α, BEq α where
  /-- The scalar nearest to a count. -/
  ofNat : Nat → α
  /-- The scalar nearest to a written number. -/
  ofNumeral : Numeral → α
  /-- Above every other number. -/
  posInf : α
  /-- Below every other number. -/
  negInf : α
  /-- Differences below this one are put down to rounding. -/
  tolerance : α
  /-- Neither undefined nor infinite. -/
  isFinite : α → Bool
  /-- The whole part, `none` where it is no count below `2 ^ 64`. -/
  floor? : α → Option Nat
  decidableLE : DecidableLE α
  decidableLT : DecidableLT α

namespace Scalar

variable {α : Type} [Scalar α]

instance : DecidableLE α := Scalar.decidableLE
instance : DecidableLT α := Scalar.decidableLT

/-- The smaller of the two. An undefined operand gives way to the other one. -/
@[specialize] def least (a b : α) : α :=
  if a ≤ b || b != b then a else b

/-- The larger of the two. An undefined operand gives way to the other one. -/
@[specialize] def greatest (a b : α) : α :=
  if b ≤ a || b != b then a else b

def distance (a b : α) : α :=
  if a ≤ b then b - a else a - b

def midpoint (low high : α) : α :=
  (low + high) / (1 + 1)

/-- A range can be sampled when both ends are finite and it has a width. -/
def sampleable (low high : α) : Bool :=
  isFinite low && isFinite high && low < high

end Scalar

end FuzzyInference
