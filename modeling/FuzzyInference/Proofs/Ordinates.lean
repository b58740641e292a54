import FuzzyInference.Proofs.Binary64Order
import FuzzyInference.Proofs.FiniteDegrees
import FuzzyInference.Proofs.Slopes

/-!
# What a chain reads

The ordinate of a chain at a number depends on where the number lies: before the points, behind
them, between two of them, or over some of them. Over points that share an abscissa the segment in
front of them is met first, and it ends in the first of them. Only at the start of a chain there is
no such segment.

* `Parted`: the points before a number, over it and behind it. `Rightward.exists_parted`: in a chain
  that goes to the right every number parts the points;
* `Reads`: what a chain says at a number, given which of the points over it counts;
* `metFirst`, `metLast`: two ways to choose that point;
* `Rightward.reads_metFirst`: the point that is met first counts;
* `ordinates_of_chain`: when that is as good as the last one;
* `reads_metLast_linear`, `reads_metLast_triangular`, `reads_metLast_trapezoid`: it always is in the
  chains of the shapes;
* `trapezoid_of_single_top`: a trapezoid whose top is a single number is a triangle.
-/

namespace FuzzyInference

open Exact (finite undefined finite_le_finite finite_lt_finite)

def pointAt (q y : Rat) : Point Exact := ⟨finite q, finite y⟩

/-! ## Chains that go to the right -/

/-- A chain of finite points, none of which lies to the left of an earlier one. -/
structure Rightward (chain : List (Point Exact)) : Prop where
  finite : ∀ p ∈ chain, p.Finite
  ordered : chain.Pairwise (·.x ≤ ·.x)

/-- The points of a chain before a number, over it and behind it. -/
structure Parted (chain start run rest : List (Point Exact)) (x : Exact) : Prop where
  split : chain = start ++ run ++ rest
  before : ∀ p ∈ start, p.x < x
  there : ∀ p ∈ run, p.x = x
  behind : ∀ p ∈ rest, x < p.x

/-- Which of the points over a number counts, given the points before it and those over it. -/
abbrev Choice : Type := List (Point Exact) → List (Point Exact) → Option (Point Exact)

def metLast : Choice := fun _ run => run.getLast?

/-- Behind other points the first one is met first, as the end of a segment. At the start of a chain
a vertical segment is met first, and the second one is its end. -/
def metFirst : Choice
  | [], _ :: q :: _ => some q
  | _, run => run.head?

/-- `y` is what the chain says at `x`: before its points and behind them the ordinate of the nearest
one, between two of them the share of the way from the one to the other, and over some of them the
ordinate of the one that counts. -/
structure Reads (counts : Choice) (chain : List (Point Exact)) (x y : Exact) : Prop where
  before : ∀ p rest, chain = p :: rest → x < p.x → y = p.y
  behind : ∀ start q, chain = start ++ [q] → q.x < x → y = q.y
  between : ∀ start q r rest, chain = start ++ q :: r :: rest → q.x < x → x < r.x →
    y = q.y + (x - q.x) * (r.y - q.y) / (r.x - q.x)
  there : ∀ start run rest, Parted chain start run rest x → ∀ q ∈ counts start run, y = q.y

section

variable {chain start run rest : List (Point Exact)} {p : Point Exact} {x y z : Exact}

theorem Rightward.tail (h : Rightward (p :: chain)) : Rightward chain where
  finite q hq := h.finite q (List.mem_cons_of_mem p hq)
  ordered := h.ordered.tail

/-- A chain reads one ordinate at each number, if some point counts wherever there is one. -/
theorem Reads.unique {counts : Choice} (hy : Reads counts chain x y) (hz : Reads counts chain x z)
    (chosen : ∀ start run, run ≠ [] → ∃ q, counts start run = some q) (ne : chain ≠ [])
    (parted : Parted chain start run rest x) : y = z := by
  by_cases off : run = []
  · subst off
    have parts := parted.split
    rw [List.append_nil] at parts
    rcases List.eq_nil_or_concat start with rfl | ⟨start, q, rfl⟩
    · cases rest with
      | nil => exact absurd parts ne
      | cons r rest =>
        have below := parted.behind r List.mem_cons_self
        rw [hy.before r rest parts below, hz.before r rest parts below]
    · have past := parted.before q (by simp)
      rw [List.concat_eq_append, List.append_assoc, List.singleton_append] at parts
      cases rest with
      | nil => rw [hy.behind start q parts past, hz.behind start q parts past]
      | cons r rest =>
        have below := parted.behind r List.mem_cons_self
        rw [hy.between start q r rest parts past below,
          hz.between start q r rest parts past below]
  · obtain ⟨q, hq⟩ := chosen start run off
    rw [hy.there start run rest parted q hq, hz.there start run rest parted q hq]

theorem exists_metFirst (start : List (Point Exact)) (more : run ≠ []) :
    ∃ q, metFirst start run = some q := by
  unfold metFirst
  split
  · exact ⟨_, rfl⟩
  · exact ⟨_, List.head?_eq_some_head more⟩

end

/-! ## Readings -/

section

variable {α : Type} [Scalar α] [Scalar.Comparable α]
  {p q : Point α} {start rest tail : List (Point α)} {x : α}

/-- Points that are passed do not count any more. -/
theorem interpolate_past (parts : p :: rest = start ++ q :: tail) (passed : ∀ r ∈ start, r.x < x)
    (here : q.x < x) : interpolate p rest x = interpolate q tail x := by
  induction start generalizing p rest with
  | nil =>
    obtain ⟨rfl, rfl⟩ := List.cons.inj parts
    rfl
  | cons r start ih =>
    obtain ⟨rfl, rfl⟩ := List.cons.inj parts
    rw [List.forall_mem_cons] at passed
    obtain ⟨first, others⟩ := passed
    have started : ¬ x < p.x := Scalar.not_lt_of_le (Scalar.le_of_lt first)
    have next : ∃ s more, start ++ q :: tail = s :: more ∧ s.x < x := by
      cases start with
      | nil => exact ⟨q, tail, rfl, here⟩
      | cons s start => exact ⟨s, start ++ q :: tail, rfl, others s List.mem_cons_self⟩
    obtain ⟨s, more, same, past⟩ := next
    calc interpolate p (start ++ q :: tail) x
      _ = interpolate p (s :: more) x := by rw [same]
      _ = interpolate s more x := interpolate_beyond started past
      _ = interpolate q tail x := ih same.symm others

end

section

variable {p q r : Point Exact} {start run rest chain : List (Point Exact)} {x : Exact}

theorem Point.Finite.eq_pointAt (h : p.Finite) : ∃ a y, p = pointAt a y := by
  obtain ⟨a, ha⟩ := Exact.isFinite_iff.1 h.x
  obtain ⟨y, hy⟩ := Exact.isFinite_iff.1 h.y
  exact ⟨a, y, by rw [pointAt, ← ha, ← hy]⟩

/-- A segment starts at its first end. -/
theorem Segment.value_first (hq : q.Finite) (hr : r.Finite) (wide : q.x < r.x) :
    (Segment.mk q r).value q.x = q.y := by
  obtain ⟨a, y, rfl⟩ := hq.eq_pointAt
  obtain ⟨b, z, rfl⟩ := hr.eq_pointAt
  have apart := (finite_lt_finite.1 wide).ne
  refine (Segment.value_finite apart y z a).trans (congrArg finite ?_)
  rw [sub_self, zero_mul, zero_div, add_zero]

/-- A segment ends at its last end. -/
theorem Segment.value_last (hq : q.Finite) (hr : r.Finite) (wide : q.x < r.x) :
    (Segment.mk q r).value r.x = r.y := by
  obtain ⟨a, y, rfl⟩ := hq.eq_pointAt
  obtain ⟨b, z, rfl⟩ := hr.eq_pointAt
  have apart := (finite_lt_finite.1 wide).ne
  refine (Segment.value_finite apart y z b).trans (congrArg finite ?_)
  rw [mul_div_cancel_left₀ _ (sub_ne_zero.2 apart.symm), add_sub_cancel]

namespace Rightward

theorem interpolate_behind (h : Rightward (p :: rest)) (parts : p :: rest = start ++ [q])
    (past : q.x < x) : interpolate p rest x = q.y := by
  have passed : ∀ r ∈ start, r.x < x := by
    intro r hr
    have ordered := parts ▸ h.ordered
    exact Scalar.lt_of_le_of_lt ((List.pairwise_append.1 ordered).2.2 r hr q (by simp)) past
  rw [interpolate_past parts passed past, interpolate_nil]

theorem interpolate_between (h : Rightward (p :: rest)) {tail : List (Point Exact)}
    (parts : p :: rest = start ++ q :: r :: tail) (low : q.x < x) (high : x < r.x) :
    interpolate p rest x = q.y + (x - q.x) * (r.y - q.y) / (r.x - q.x) := by
  have passed : ∀ s ∈ start, s.x < x := by
    intro s hs
    have ordered := parts ▸ h.ordered
    exact Scalar.lt_of_le_of_lt ((List.pairwise_append.1 ordered).2.2 s hs q (by simp)) low
  have wide := Scalar.lt_of_lt_of_le low (Scalar.le_of_lt high)
  rw [interpolate_past parts passed low,
    interpolate_within (Scalar.le_of_lt low) (Scalar.le_of_lt high), Segment.value,
    if_neg (Scalar.not_beq_of_lt (.inl wide))]

/-- A chain starts with its first point, if no other one stands over it. -/
theorem interpolate_first (h : Rightward (p :: rest)) (alone : ∀ q ∈ rest, p.x < q.x) :
    interpolate p rest p.x = p.y := by
  cases rest with
  | nil => exact interpolate_nil p p.x
  | cons q rest =>
    have wide := alone q List.mem_cons_self
    have here := (Scalar.Ordered.defined_of_le (Scalar.le_of_lt wide)).1.le_refl
    rw [interpolate_within here (Scalar.le_of_lt wide)]
    exact Segment.value_first (h.finite p (by simp)) (h.finite q (by simp)) wide

/-- Of two points over its start the second one counts, whatever follows. -/
theorem interpolate_second (h : Rightward (p :: q :: rest)) (same : p.x = q.x) :
    interpolate p (q :: rest) q.x = q.y := by
  have defined := Exact.defined_of_isFinite (h.finite q (by simp)).x
  have equal : (p.x == q.x) = true := Exact.beq_iff.2 ⟨same ▸ defined, same⟩
  obtain ⟨low, high⟩ := Scalar.Comparable.beq_iff.1 equal
  rw [interpolate_within low (Exact.le_refl defined), Segment.value, if_pos equal]

/-- Behind other points the segment that ends over the number is met first. -/
theorem interpolate_run (h : Rightward (p :: rest)) {tail : List (Point Exact)}
    (parted : Parted (p :: rest) (start ++ [q]) (r :: run) tail x) :
    interpolate p rest x = r.y := by
  have parts : p :: rest = start ++ q :: r :: (run ++ tail) := by
    rw [parted.split]
    simp
  have past := parted.before q (by simp)
  have here := parted.there r (by simp)
  have member : q ∈ p :: rest ∧ r ∈ p :: rest := by
    rw [parts]
    simp
  subst here
  rw [interpolate_past parts (fun s hs => parted.before s (by simp [hs])) past,
    interpolate_within (Scalar.le_of_lt past)
      (Scalar.Ordered.defined_of_le (Scalar.le_of_lt past)).2.le_refl]
  exact Segment.value_last (h.finite q member.1) (h.finite r member.2) past

/-- Of the points over a number the one that is met first counts. -/
theorem reads_metFirst (h : Rightward (p :: rest)) (x : Exact) :
    Reads metFirst (p :: rest) x (interpolate p rest x) where
  before q tail split low := by
    obtain ⟨rfl, rfl⟩ := List.cons.inj split
    exact interpolate_of_lt low
  behind start q split past := h.interpolate_behind split past
  between start q r tail split low high := h.interpolate_between split low high
  there start run tail parted q hq := by
    rcases List.eq_nil_or_concat start with rfl | ⟨start, s, rfl⟩
    · have parts : p :: rest = run ++ tail := parted.split
      match run with
      | [] => cases hq
      | [r] =>
        obtain ⟨rfl, rfl⟩ := List.cons.inj parts
        cases hq
        obtain rfl := parted.there p (by simp)
        exact h.interpolate_first parted.behind
      | r :: s :: more =>
        obtain ⟨rfl, rfl⟩ := List.cons.inj parts
        cases hq
        obtain rfl := parted.there q (by simp)
        exact h.interpolate_second (parted.there p (by simp))
    · rw [List.concat_eq_append] at parted hq
      cases run with
      | nil => simp [metFirst] at hq
      | cons r run =>
        have first : r = q := by simpa [metFirst] using hq
        rw [h.interpolate_run parted, first]

/-- The last of the points over a number counts where its ordinate is that of the one met first. -/
theorem reads_metLast_iff (h : Rightward (p :: rest)) :
    Reads metLast (p :: rest) x (interpolate p rest x) ↔
      ∀ start run behind, Parted (p :: rest) start run behind x →
        (metFirst start run).map (·.y) = (metLast start run).map (·.y) := by
  have reads := h.reads_metFirst x
  constructor
  · intro last start run behind parted
    by_cases off : run = []
    · simp [off, metFirst, metLast]
    · obtain ⟨q, hq⟩ := exists_metFirst start off
      have hr : metLast start run = some (run.getLast off) := List.getLast?_eq_some_getLast off
      rw [hq, hr, Option.map_some, Option.map_some,
        ← reads.there start run behind parted q hq, ← last.there start run behind parted _ hr]
  · intro same
    refine ⟨reads.before, reads.behind, reads.between, ?_⟩
    intro start run behind parted r hr
    have more : run ≠ [] := by
      rintro rfl
      cases hr
    obtain ⟨q, hq⟩ := exists_metFirst start more
    have ordinates := same start run behind parted
    rw [hq, hr, Option.map_some, Option.map_some] at ordinates
    rw [reads.there start run behind parted q hq]
    exact Option.some.inj ordinates

end Rightward

theorem nil_or_singleton_of_alone (alone : run.Pairwise fun q r => ¬ (q.x = x ∧ r.x = x))
    (there : ∀ q ∈ run, q.x = x) : run = [] ∨ ∃ q, run = [q] := by
  match run with
  | [] => exact .inl rfl
  | [q] => exact .inr ⟨q, rfl⟩
  | q :: r :: tail =>
    have apart := (List.pairwise_cons.1 alone).1 r List.mem_cons_self
    exact absurd ⟨there q (by simp), there r (by simp)⟩ apart

/-- Where no two points stand over a number, but for the first point of the chain, the last point
over it is the one that is met first. -/
theorem metFirst_eq_metLast {behind : List (Point Exact)}
    (alone : rest.Pairwise fun q r => ¬ (q.x = x ∧ r.x = x))
    (parted : Parted (p :: rest) start run behind x) : metFirst start run = metLast start run := by
  have parts := parted.split
  cases start with
  | nil =>
    cases run with
    | nil => rfl
    | cons q run =>
      obtain ⟨rfl, rfl⟩ := List.cons.inj parts
      have alone' := (List.pairwise_append.1 alone).1
      have there := (List.forall_mem_cons.1 parted.there).2
      obtain rfl | ⟨r, rfl⟩ := nil_or_singleton_of_alone alone' there
      · rfl
      · rfl
  | cons q start =>
    obtain ⟨rfl, rfl⟩ := List.cons.inj parts
    have alone' := (List.pairwise_append.1 (List.pairwise_append.1 alone).1).2.1
    obtain rfl | ⟨r, rfl⟩ := nil_or_singleton_of_alone alone' parted.there
    · rfl
    · rfl

theorem Rightward.reads_metLast_of_alone (h : Rightward (p :: rest))
    (alone : rest.Pairwise fun q r => ¬ (q.x = x ∧ r.x = x)) :
    Reads metLast (p :: rest) x (interpolate p rest x) := by
  rw [h.reads_metLast_iff]
  intro start run behind parted
  rw [metFirst_eq_metLast alone parted]

end

theorem rightward_map_pointAt (coordinates : List (Rat × Rat))
    (ordered : coordinates.Pairwise (·.1 ≤ ·.1)) :
    Rightward (coordinates.map fun (q, y) => pointAt q y) where
  finite := List.forall_mem_map.2 fun _ _ => ⟨rfl, rfl⟩
  ordered := List.pairwise_map.2 (ordered.imp finite_le_finite.2)

section

variable {a b c d : Rat} {x : Exact}

/-- The chain of a ramp that rises reads the last point everywhere, also where it is a step. -/
theorem reads_metLast_linear (h : a ≤ b) (x : Exact) :
    Reads metLast [pointAt a 0, pointAt b 1] x
      ((FuzzySet.linear (finite a) (finite b)).degree x) := by
  rw [FuzzySet.degree]
  exact (rightward_map_pointAt [(a, 0), (b, 1)] (by simpa using h)).reads_metLast_of_alone
    (List.pairwise_singleton _ _)

/-- Before the right foot no point stands over that foot, so the top is alone. -/
theorem reads_metLast_triangular (rise : a ≤ b) (fall : b ≤ c) (low : finite a < x)
    (high : x < finite c) :
    Reads metLast [pointAt a 0, pointAt b 1, pointAt c 0] x
      ((FuzzySet.triangular (finite a) (finite b) (finite c)).degree x) := by
  have rightward : Rightward [pointAt a 0, pointAt b 1, pointAt c 0] :=
    rightward_map_pointAt [(a, 0), (b, 1), (c, 0)] (by simp [rise, fall, rise.trans fall])
  have foot : (pointAt c 0).x ≠ x := (Scalar.ne_of_lt high).symm
  rw [FuzzySet.degree, FuzzySet.triangleDegree_inside low high]
  refine rightward.reads_metLast_of_alone (List.pairwise_pair.2 ?_)
  exact fun both => foot both.2

/-- Off the top of a trapezoid the two ends of that top are not both over one number. -/
theorem reads_metLast_trapezoid (rise : a ≤ b) (top : b ≤ c) (fall : c ≤ d)
    (off : ¬ (finite b ≤ x ∧ x ≤ finite c)) (low : finite a < x) (high : x < finite d) :
    Reads metLast [pointAt a 0, pointAt b 1, pointAt c 1, pointAt d 0] x
      ((FuzzySet.trapezoid (finite a) (finite b) (finite c) (finite d)).degree x) := by
  have rightward : Rightward [pointAt a 0, pointAt b 1, pointAt c 1, pointAt d 0] :=
    rightward_map_pointAt [(a, 0), (b, 1), (c, 1), (d, 0)]
      (by simp [rise, top, fall, rise.trans top, top.trans fall, (rise.trans top).trans fall])
  have foot : (pointAt d 0).x ≠ x := (Scalar.ne_of_lt high).symm
  have ends : ¬ ((pointAt b 1).x = x ∧ (pointAt c 1).x = x) := by
    rintro ⟨rfl, same⟩
    exact off ⟨finite_le_finite.2 le_rfl, finite_le_finite.2 top⟩
  rw [FuzzySet.degree, FuzzySet.trapezoidDegree_inside off low high]
  refine rightward.reads_metLast_of_alone (List.pairwise_cons.2 ⟨?_, List.pairwise_pair.2 ?_⟩)
  · intro r hr both
    rcases List.mem_pair.1 hr with rfl | rfl
    · exact ends both
    · exact foot both.2
  · exact fun both => foot both.2

end

section

variable {α : Type} [Scalar α]

/-- Away from a point it does not matter how often a chain goes through it. -/
theorem interpolate_repeated {p q : Point α} {rest : List (Point α)} {x : α}
    (off : ¬ (q.x ≤ x ∧ x ≤ q.x)) :
    interpolate p (q :: q :: rest) x = interpolate p (q :: rest) x := by
  have passed : ¬ (Segment.mk q q).covers x = true := by rwa [Segment.covers_iff]
  have found : (segments p (q :: q :: rest)).find? (·.covers x) =
      (segments p (q :: rest)).find? (·.covers x) := by
    have skipped : (segments q (q :: rest)).find? (·.covers x) =
        (segments q rest).find? (·.covers x) := List.find?_cons_of_neg passed
    rw [segments, List.find?_cons, skipped, segments, List.find?_cons]
  unfold interpolate
  rw [found]
  rfl

variable [Scalar.Comparable α]

/-- Away from the top the two are the same, whatever the arithmetic. -/
theorem FuzzySet.trapezoid_eq_triangle {a b c x : α} (off : ¬ (x == b) = true) :
    (trapezoid a b b c).degree x = (triangular a b c).degree x := by
  have top : ¬ (b ≤ x ∧ x ≤ b) := by
    rintro ⟨low, high⟩
    exact off (Scalar.Comparable.beq_iff.2 ⟨high, low⟩)
  rw [degree, degree]
  by_cases outside : x ≤ a ∨ c ≤ x
  · rw [trapezoidDegree_outside top outside, triangleDegree_outside outside, if_neg off]
  · rw [trapezoidDegree, if_neg, if_neg, triangleDegree, if_neg]
    · exact interpolate_repeated top
    · rwa [Bool.or_eq_true, decide_eq_true_eq, decide_eq_true_eq]
    · rwa [Bool.or_eq_true, decide_eq_true_eq, decide_eq_true_eq]
    · rwa [Bool.and_eq_true, decide_eq_true_eq, decide_eq_true_eq]

end

/-- A trapezoid whose top is a single number is the triangle with its peak there, in whatever order
the parameters are and whichever of them are equal. The slopes are the same computation in both:
away from the top no arithmetic makes a difference between them. -/
theorem trapezoid_of_single_top :
    (∀ (a b c : Rat) (x : Exact),
      (FuzzySet.trapezoid (finite a) (finite b) (finite b) (finite c)).degree x =
        (FuzzySet.triangular (finite a) (finite b) (finite c)).degree x) ∧
    ∀ {α : Type} [Scalar α] [Scalar.Comparable α] (a b c x : α), ¬ (x == b) = true →
      (FuzzySet.trapezoid a b b c).degree x = (FuzzySet.triangular a b c).degree x := by
  refine ⟨?_, ?_⟩
  · intro a b c x
    by_cases top : x = finite b
    · subst top
      have defined : (finite b : Exact) ≤ finite b := finite_le_finite.2 le_rfl
      rw [trapezoid_top defined defined, triangle_peak]
    · apply FuzzySet.trapezoid_eq_triangle
      rw [Exact.beq_iff]
      exact fun same => top same.2
  · intro α _ _ a b c x off
    exact FuzzySet.trapezoid_eq_triangle off

theorem trapezoid_of_single_top_reversed :
    (FuzzySet.trapezoid (finite 11) (finite 3) (finite 3) (finite (-5))).degree (finite 3) =
      (FuzzySet.triangular (finite 11) (finite 3) (finite (-5))).degree (finite 3) ∧
    ¬ ((7 : Float) == 3) = true ∧
    (FuzzySet.trapezoid (-5 : Float) 3 3 11).degree 7 =
      (FuzzySet.triangular (-5 : Float) 3 11).degree 7 := by
  obtain ⟨everywhere, offTop⟩ := trapezoid_of_single_top
  have off : ¬ ((7 : Float) == 3) = true := by decide +kernel
  exact ⟨everywhere 11 3 (-5) (finite 3), off, offTop (-5) 3 11 7 off⟩

end FuzzyInference
