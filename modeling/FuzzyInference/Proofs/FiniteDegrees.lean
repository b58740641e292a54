import FuzzyInference.Proofs.Division

/-!
# Finite degrees

* `FuzzySet.Populated`: no minimum and no maximum in a fuzzy set is one of nothing;
* `isFinite_interpolate`: chains of points with finite numbers, in whatever order they come;
* `FuzzySet.Populated.isFinite_degree`: so finite numbers have finite degrees in such a set, if the
  numbers in it are finite too.
-/

namespace FuzzyInference

namespace FuzzySet

/-- No minimum and no maximum in the set is one of nothing. -/
inductive Populated {α : Type} : FuzzySet α → Prop
  | constant (y : α) : Populated (.constant y)
  | linear (a b : α) : Populated (.linear a b)
  | triangular (a b c : α) : Populated (.triangular a b c)
  | trapezoid (a b c d : α) : Populated (.trapezoid a b c d)
  | inverted {m : FuzzySet α} (inner : Populated m) : Populated (.inverted m)
  | min {ms : List (FuzzySet α)} (nonempty : ms ≠ []) (each : ∀ m ∈ ms, Populated m) :
      Populated (.min ms)
  | max {ms : List (FuzzySet α)} (nonempty : ms ≠ []) (each : ∀ m ∈ ms, Populated m) :
      Populated (.max ms)

theorem numbersOfList_eq_flatMap {α : Type} (ms : List (FuzzySet α)) :
    numbersOfList ms = ms.flatMap numbers := by
  induction ms with
  | nil => rfl
  | cons m ms ih => rw [numbersOfList, ih, List.flatMap_cons]

end FuzzySet

structure Point.Finite (p : Point Exact) : Prop where
  x : Scalar.isFinite p.x = true
  y : Scalar.isFinite p.y = true

theorem Segment.isFinite_value {s : Segment Exact} {x : Exact} (first : s.first.Finite)
    (last : s.last.Finite) (hx : Scalar.isFinite x = true) :
    Scalar.isFinite (s.value x) = true := by
  unfold value
  split
  · exact last.y
  · next sloped =>
    apply Exact.isFinite_add first.y
    apply Exact.isFinite_div
    · exact Exact.isFinite_mul (Exact.isFinite_sub hx first.x) (Exact.isFinite_sub last.y first.y)
    · exact Exact.isFinite_sub last.x first.x
    · exact width_ne_zero first.x last.x sloped

theorem isFinite_interpolate {start : Point Exact} {rest : List (Point Exact)}
    (each : ∀ p ∈ start :: rest, p.Finite) {x : Exact} (hx : Scalar.isFinite x = true) :
    Scalar.isFinite (interpolate start rest x) = true := by
  unfold interpolate
  split
  · exact (each start List.mem_cons_self).y
  · split
    · next s found =>
      obtain ⟨first, last⟩ := mem_segments (List.mem_of_find?_eq_some found)
      exact s.isFinite_value (each _ first) (each _ last) hx
    · exact (each _ (List.getLast_mem _)).y

namespace FuzzySet

variable {x : Exact}

theorem isFinite_triangleDegree {a b c : Exact} (ha : Scalar.isFinite a = true)
    (hb : Scalar.isFinite b = true) (hc : Scalar.isFinite c = true)
    (hx : Scalar.isFinite x = true) : Scalar.isFinite (triangleDegree a b c x) = true := by
  unfold triangleDegree
  split
  · split
    · rfl
    · rfl
  · apply isFinite_interpolate _ hx
    simpa using ⟨⟨ha, rfl⟩, ⟨hb, rfl⟩, ⟨hc, rfl⟩⟩

theorem isFinite_trapezoidDegree {a b c d : Exact} (ha : Scalar.isFinite a = true)
    (hb : Scalar.isFinite b = true) (hc : Scalar.isFinite c = true)
    (hd : Scalar.isFinite d = true) (hx : Scalar.isFinite x = true) :
    Scalar.isFinite (trapezoidDegree a b c d x) = true := by
  unfold trapezoidDegree
  split
  · rfl
  · split
    · rfl
    · apply isFinite_interpolate _ hx
      simpa using ⟨⟨ha, rfl⟩, ⟨hb, rfl⟩, ⟨hc, rfl⟩, ⟨hd, rfl⟩⟩

theorem isFinite_degrees {ms : List (FuzzySet Exact)}
    (each : ∀ m ∈ ms, (∀ n ∈ m.numbers, Scalar.isFinite n = true) →
      Scalar.isFinite (m.degree x) = true)
    (numbers : ∀ n ∈ numbersOfList ms, Scalar.isFinite n = true) :
    ∀ y ∈ degrees ms x, Scalar.isFinite y = true := by
  rw [degrees_eq_map]
  rw [numbersOfList_eq_flatMap] at numbers
  intro y hy
  obtain ⟨m, hm, rfl⟩ := List.mem_map.1 hy
  exact each m hm fun n hn => numbers n (List.mem_flatMap.2 ⟨m, hm, hn⟩)

/-- The degrees of finite numbers in a set of finite numbers are finite. An infinity can only come
of a minimum or a maximum of nothing. -/
theorem Populated.isFinite_degree {m : FuzzySet Exact} (h : m.Populated)
    (numbers : ∀ n ∈ m.numbers, Scalar.isFinite n = true) (hx : Scalar.isFinite x = true) :
    Scalar.isFinite (m.degree x) = true := by
  induction h with
  | constant y =>
    rw [degree]
    exact numbers y List.mem_cons_self
  | linear a b =>
    simp only [FuzzySet.numbers, List.forall_mem_cons] at numbers
    obtain ⟨ha, hb, -⟩ := numbers
    rw [degree]
    apply isFinite_interpolate _ hx
    simpa using ⟨⟨ha, rfl⟩, ⟨hb, rfl⟩⟩
  | triangular a b c =>
    simp only [FuzzySet.numbers, List.forall_mem_cons] at numbers
    obtain ⟨ha, hb, hc, -⟩ := numbers
    rw [degree]
    exact isFinite_triangleDegree ha hb hc hx
  | trapezoid a b c d =>
    simp only [FuzzySet.numbers, List.forall_mem_cons] at numbers
    obtain ⟨ha, hb, hc, hd, -⟩ := numbers
    rw [degree]
    exact isFinite_trapezoidDegree ha hb hc hd hx
  | inverted inner ih =>
    rw [degree]
    exact Exact.isFinite_sub rfl (ih numbers)
  | @min ms some each ih =>
    have operands := isFinite_degrees ih numbers
    rw [degree]
    apply operands
    exact Exact.foldl_least_mem (degrees_ne_nil some x) fun y hy =>
      Exact.defined_of_isFinite (operands y hy)
  | @max ms some each ih =>
    have operands := isFinite_degrees ih numbers
    rw [degree]
    apply operands
    exact Exact.foldl_greatest_mem (degrees_ne_nil some x) fun y hy =>
      Exact.defined_of_isFinite (operands y hy)

end FuzzySet

end FuzzyInference
