import FuzzyInference.Number.Scalar

/-!
# Exact scalars

Rational arithmetic with two infinities. Nothing is rounded, so a statement over these scalars is
about the computation itself and not about a number format. Every finite binary64 value is one of
them.

* `Exact`: rational numbers, the infinities and the undefined result;
* the instance `Scalar Exact`: there is one zero, and division by it is undefined.
-/

namespace FuzzyInference

/-- A rational number, an infinity, or the result of an operation that has none. -/
inductive Exact where
  | undefined
  | negInf
  | finite (value : Rat)
  | posInf
  deriving DecidableEq

namespace Exact

/-- An infinity with the sign of `q`, undefined for zero. -/
def signedInf (q : Rat) : Exact :=
  if 0 < q then .posInf else if q < 0 then .negInf else .undefined

def neg : Exact → Exact
  | .undefined => .undefined
  | .negInf => .posInf
  | .finite q => .finite (-q)
  | .posInf => .negInf

/-- Opposite infinities have no sum. -/
def add : Exact → Exact → Exact
  | .finite p, .finite q => .finite (p + q)
  | .undefined, _ | _, .undefined => .undefined
  | .posInf, .negInf | .negInf, .posInf => .undefined
  | .posInf, _ | _, .posInf => .posInf
  | .negInf, _ | _, .negInf => .negInf

/-- Zero times an infinity is undefined. -/
def mul : Exact → Exact → Exact
  | .finite p, .finite q => .finite (p * q)
  | .undefined, _ | _, .undefined => .undefined
  | .finite q, .posInf | .posInf, .finite q => signedInf q
  | .finite q, .negInf | .negInf, .finite q => signedInf (-q)
  | .posInf, .posInf | .negInf, .negInf => .posInf
  | .posInf, .negInf | .negInf, .posInf => .negInf

/-- Division by zero and the quotient of two infinities are undefined. -/
def div : Exact → Exact → Exact
  | .finite p, .finite q => if q = 0 then .undefined else .finite (p / q)
  | .undefined, _ | _, .undefined => .undefined
  | .finite _, .posInf | .finite _, .negInf => .finite 0
  | .posInf, .finite q => signedInf q
  | .negInf, .finite q => signedInf (-q)
  | .posInf, .posInf | .posInf, .negInf | .negInf, .posInf | .negInf, .negInf => .undefined

/-- Nothing is at most or at least an undefined result. -/
def le : Exact → Exact → Bool
  | .undefined, _ | _, .undefined => false
  | .negInf, _ | _, .posInf => true
  | .finite p, .finite q => p ≤ q
  | .finite _, .negInf | .posInf, .finite _ | .posInf, .negInf => false

def lt : Exact → Exact → Bool
  | .undefined, _ | _, .undefined => false
  | .finite p, .finite q => p < q
  | .negInf, .negInf | .posInf, .posInf => false
  | .negInf, _ | _, .posInf => true
  | .finite _, .negInf | .posInf, .finite _ | .posInf, .negInf => false

def isFinite : Exact → Bool
  | .finite _ => true
  | _ => false

/-- The whole part of a number that is a count below `2 ^ 64`. -/
def floor? : Exact → Option Nat
  | .finite q => if 0 ≤ q ∧ q < UInt64.size then some q.floor.toNat else none
  | _ => none

def ofNumeral : Numeral → Exact
  | .decimal negative digits exponent =>
    let magnitude := (digits : Rat) * (10 : Rat) ^ exponent
    .finite (if negative then -magnitude else magnitude)
  | .infinity negative => if negative then .negInf else .posInf
  | .undefined => .undefined

instance : Scalar Exact where
  zero := .finite 0
  one := .finite 1
  add := add
  sub a b := add a (neg b)
  mul := mul
  div := div
  le a b := le a b
  lt a b := lt a b
  beq a b := a != .undefined && a = b
  ofNat n := .finite n
  ofNumeral := ofNumeral
  posInf := .posInf
  negInf := .negInf
  tolerance := .finite (1 / 1000000000)
  isFinite := isFinite
  floor? := floor?
  decidableLE a b := inferInstanceAs (Decidable (le a b = true))
  decidableLT a b := inferInstanceAs (Decidable (lt a b = true))

end Exact

end FuzzyInference
