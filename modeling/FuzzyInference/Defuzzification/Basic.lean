import FuzzyInference.Defuzzification.Samples

/-!
# Defuzzification

Turns a fuzzy set over a range into one number.

* `centroid`: the centre of gravity of the samples, each weighted by its degree;
* `meanOfMaximum`: the mean of the samples whose degree is greatest;
* `Defuzzification`: the choice of a method and of its number of steps;
* `Defuzzifier`: any way at all to do it.

Where a method has nothing to go by, the answer is the midpoint of the range.
-/

namespace FuzzyInference

/-- A way to turn a fuzzy set over a range into one number. -/
abbrev Defuzzifier (α : Type) : Type := FuzzySet α → Range α → α

section

variable {α : Type} [Scalar α]

def Range.midpoint (range : Range α) : α := Scalar.midpoint range.low range.high

/-- The sum of the samples weighted by their degrees, and the sum of the degrees. -/
def moments (m : FuzzySet α) (samples : List α) : α × α :=
  samples.foldl (fun (weighted, total) x =>
    let y := m.degree x
    (weighted + y * x, total + y)) (0, 0)

/-- The centre of gravity. Without any weight, the midpoint. -/
def centroid (steps : Nat) (m : FuzzySet α) (range : Range α) : α :=
  if !Scalar.sampleable range.low range.high then range.midpoint
  else
    let (weighted, total) := moments m (Samples.ofSteps range steps).toList
    if total == 0 then range.midpoint else weighted / total

/-- The greatest degree among the samples, or zero when none is above it. -/
def peak (m : FuzzySet α) (samples : List α) : α :=
  (samples.map m.degree).foldl Scalar.greatest 0

/-- The samples whose degree is `height`, but for rounding. -/
def samplesAt (m : FuzzySet α) (height : α) (samples : List α) : List α :=
  samples.filter fun x => Scalar.distance (m.degree x) height < Scalar.tolerance

/-- The mean of the samples with the greatest degree. Where no degree is above zero, the
midpoint. -/
def meanOfMaximum (steps : Nat) (m : FuzzySet α) (range : Range α) : α :=
  if !Scalar.sampleable range.low range.high then range.midpoint
  else
    let samples := (Samples.ofSteps range steps).toList
    let height := peak m samples
    if height == 0 then range.midpoint
    else
      let maximal := samplesAt m height samples
      if maximal.isEmpty then range.midpoint
      else maximal.foldl (· + ·) 0 / Scalar.ofNat maximal.length

end

inductive Method where
  | centroid
  | meanOfMaximum
  deriving DecidableEq, Repr

/-- A method and the number of steps it samples a range in. -/
structure Defuzzification where
  method : Method
  steps : UInt64
  deriving DecidableEq, Repr

namespace Defuzzification

def defaultSteps : UInt64 := 100

def defuzzifier {α : Type} [Scalar α] (d : Defuzzification) : Defuzzifier α :=
  match d.method with
  | .centroid => FuzzyInference.centroid d.steps.toNat
  | .meanOfMaximum => FuzzyInference.meanOfMaximum d.steps.toNat

end Defuzzification

end FuzzyInference
