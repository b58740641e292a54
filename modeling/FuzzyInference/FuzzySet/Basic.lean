import FuzzyInference.FuzzySet.Interpolation

/-!
# Fuzzy sets

A fuzzy set of numbers, to which each number belongs to some degree.

* `FuzzySet`: the shapes and the ways to combine them;
* `FuzzySet.degree`: the degree of a number, never clamped: a combination gives whatever its
  operands give, and an empty one an infinity;
* `FuzzySet.domain`: the range over which it varies.
-/

namespace FuzzyInference

/-- The numbers from `low` to `high`. -/
structure Range (α : Type) where
  low : α
  high : α
  deriving BEq, DecidableEq

namespace Range

variable {α : Type} [Scalar α]

/-- The range of nothing: its ends are the wrong way round. -/
def empty : Range α := ⟨Scalar.posInf, Scalar.negInf⟩

/-- The least range around both. -/
def union (r s : Range α) : Range α :=
  ⟨Scalar.least r.low s.low, Scalar.greatest r.high s.high⟩

def unionAll (ranges : List (Range α)) : Range α :=
  ranges.foldl union empty

end Range

/-- A degree of membership for every number.

* `constant y` is `y` everywhere.
* `linear a b` is zero below `a`, rises to one at `b` and stays there.
* `triangular a b c` rises from zero at `a` to one at `b` and falls to zero at `c`.
* `trapezoid a b c d` rises from `a` to `b`, is one up to `c` and falls to zero at `d`.
* `inverted m` is one less the degree of `m`.
* `min ms` and `max ms` are the least and the greatest degree among `ms`. -/
inductive FuzzySet (α : Type) where
  | constant (degree : α)
  | linear (foot top : α)
  | triangular (left peak right : α)
  | trapezoid (left leftTop rightTop right : α)
  | inverted (inner : FuzzySet α)
  | min (operands : List (FuzzySet α))
  | max (operands : List (FuzzySet α))

namespace FuzzySet

variable {α : Type}

/-- Zero below `x`, one from `x` on. -/
def step (x : α) : FuzzySet α := .linear x x

/-- The set with every degree capped at `degree`. -/
def clip (m : FuzzySet α) (degree : α) : FuzzySet α :=
  .min [.constant degree, m]

variable [Scalar α]

/-- The ramp that is zero up to `a` and one from `b` on, or the other way round when `b` is the
smaller one. When neither is, a step. -/
def ramp (a b : α) : FuzzySet α :=
  if a < b then .linear a b
  else if b < a then .inverted (.linear b a)
  else step a

/-- The degree of `x` in a triangle. A peak over one of the feet still counts. -/
def triangleDegree (left peak right x : α) : α :=
  if x ≤ left || right ≤ x then if x == peak then 1 else 0
  else interpolate ⟨left, 0⟩ [⟨peak, 1⟩, ⟨right, 0⟩] x

/-- The degree of `x` in a trapezoid. The top wins over the feet. -/
def trapezoidDegree (left leftTop rightTop right x : α) : α :=
  if leftTop ≤ x && x ≤ rightTop then 1
  else if x ≤ left || right ≤ x then 0
  else interpolate ⟨left, 0⟩ [⟨leftTop, 1⟩, ⟨rightTop, 1⟩, ⟨right, 0⟩] x

mutual

def degree : FuzzySet α → α → α
  | .constant y, _ => y
  | .linear a b, x => interpolate ⟨a, 0⟩ [⟨b, 1⟩] x
  | .triangular a b c, x => triangleDegree a b c x
  | .trapezoid a b c d, x => trapezoidDegree a b c d x
  | .inverted m, x => 1 - m.degree x
  | .min ms, x => (degrees ms x).foldl Scalar.least Scalar.posInf
  | .max ms, x => (degrees ms x).foldl Scalar.greatest Scalar.negInf

def degrees : List (FuzzySet α) → α → List α
  | [], _ => []
  | m :: ms, x => m.degree x :: degrees ms x

end

mutual

/-- The range from the least to the greatest parameter that a degree can change at. That of a
constant is its degree. -/
def domain : FuzzySet α → Range α
  | .constant y => ⟨y, y⟩
  | .linear a b => ⟨Scalar.least a b, Scalar.greatest a b⟩
  | .triangular a _ c => ⟨a, c⟩
  | .trapezoid a _ _ d => ⟨a, d⟩
  | .inverted m => m.domain
  | .min ms => Range.unionAll (domains ms)
  | .max ms => Range.unionAll (domains ms)

def domains : List (FuzzySet α) → List (Range α)
  | [] => []
  | m :: ms => m.domain :: domains ms

end

mutual

/-- The same tree with equal numbers. A tree with an undefined number differs from itself. -/
def beq : FuzzySet α → FuzzySet α → Bool
  | .constant y, .constant y' => y == y'
  | .linear a b, .linear a' b' => a == a' && b == b'
  | .triangular a b c, .triangular a' b' c' => a == a' && b == b' && c == c'
  | .trapezoid a b c d, .trapezoid a' b' c' d' => a == a' && b == b' && c == c' && d == d'
  | .inverted m, .inverted m' => m.beq m'
  | .min ms, .min ms' => beqList ms ms'
  | .max ms, .max ms' => beqList ms ms'
  | _, _ => false

def beqList : List (FuzzySet α) → List (FuzzySet α) → Bool
  | [], [] => true
  | m :: ms, m' :: ms' => m.beq m' && beqList ms ms'
  | _, _ => false

end

instance : BEq (FuzzySet α) := ⟨beq⟩

theorem degrees_eq_map (ms : List (FuzzySet α)) (x : α) :
    degrees ms x = ms.map (·.degree x) := by
  induction ms with
  | nil => rfl
  | cons m ms ih => simp [degrees, ih]

theorem domains_eq_map (ms : List (FuzzySet α)) : domains ms = ms.map domain := by
  induction ms with
  | nil => rfl
  | cons m ms ih => simp [domains, ih]

end FuzzySet

end FuzzyInference
