import FuzzyInference.Number.Scalar

/-!
# Interpolation

The value of a chain of straight segments at a point.

* `Segment.value`: the value on one segment, at a vertical one that of its second end;
* `interpolate`: the value on a chain: before its start the first ordinate, past its end the last.
-/

namespace FuzzyInference

structure Point (α : Type) where
  x : α
  y : α
  deriving DecidableEq

/-- The piece of a chain between two neighbouring points. -/
structure Segment (α : Type) where
  first : Point α
  last : Point α

namespace Segment

variable {α : Type} [Scalar α]

/-- Whether `x` lies over the segment, both ends included. -/
def covers (s : Segment α) (x : α) : Bool :=
  s.first.x ≤ x && x ≤ s.last.x

theorem covers_iff {s : Segment α} {x : α} :
    s.covers x = true ↔ s.first.x ≤ x ∧ x ≤ s.last.x := by
  rw [covers, Bool.and_eq_true, decide_eq_true_eq, decide_eq_true_eq]

/-- The ordinate at `x`. A vertical segment stands for its second end. -/
def value (s : Segment α) (x : α) : α :=
  if s.first.x == s.last.x then s.last.y
  else s.first.y + (x - s.first.x) * (s.last.y - s.first.y) / (s.last.x - s.first.x)

end Segment

variable {α : Type}

/-- The segments of the chain that starts at `p` and goes on through `rest`. -/
def segments (p : Point α) (rest : List (Point α)) : List (Segment α) :=
  match rest with
  | [] => []
  | q :: rest => ⟨p, q⟩ :: segments q rest

/-- The ordinate at `x` of the chain from `start` through `rest`: that of the first segment over
`x` in the order given, and past all of them that of the last point. -/
def interpolate [Scalar α] (start : Point α) (rest : List (Point α)) (x : α) : α :=
  if x < start.x then start.y
  else match (segments start rest).find? (·.covers x) with
    | some s => s.value x
    | none => ((start :: rest).getLast (by simp)).y

end FuzzyInference
