import FuzzyInference.FuzzySet.Basic

/-!
# Samples

Evenly stepped numbers over a range.

* `Samples`: the numbers still to come;
* `Samples.ofStep`: from the low end in steps of the given width, no further than the high end;
* `Samples.next?`: the next one;
* `Samples.toList`: all of them.
-/

namespace FuzzyInference

/-- Numbers from `start` in steps of `step`, of which those before `index` have been taken. -/
structure Samples (α : Type) where
  start : α
  stop : α
  step : α
  index : Nat
  count : Nat

namespace Samples

variable {α : Type} [Scalar α]

/-- How many steps of this width, and one more, fit into the range. A quotient just short of a
whole number counts as that number, so that rounding does not lose the high end. Without a finite
range or a positive step, none. -/
def countOf (range : Range α) (step : α) : Nat :=
  if Scalar.isFinite range.low && Scalar.isFinite range.high && range.low ≤ range.high
      && 0 < step then
    match Scalar.floor? ((range.high - range.low) / step + Scalar.tolerance) with
    | some n => n + 1
    | none => 0
  else 0

def ofStep (range : Range α) (step : α) : Samples α :=
  ⟨range.low, range.high, step, 0, countOf range step⟩

/-- The sample with this index. None lies above the high end. -/
def sample (s : Samples α) (index : Nat) : α :=
  Scalar.least (s.start + s.step * Scalar.ofNat index) s.stop

def remaining (s : Samples α) : Nat := s.count - s.index

def next? (s : Samples α) : Option (α × Samples α) :=
  if s.index < s.count then some (s.sample s.index, { s with index := s.index + 1 }) else none

def toList (s : Samples α) : List α :=
  (List.range' s.index s.remaining).map s.sample

/-- The samples of a range in so many steps, where zero steps count as one. Each step has its
share of the width of the range, or of one if the range is narrower than that. -/
def ofSteps (range : Range α) (steps : Nat) : Samples α :=
  let n : α := Scalar.ofNat (max steps 1)
  ofStep range (Scalar.greatest (1 / n) ((range.high - range.low) / n))

end Samples

end FuzzyInference
