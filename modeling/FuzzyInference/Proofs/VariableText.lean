import FuzzyInference.Proofs.Binary64Order
import FuzzyInference.Proofs.RoundTrip

/-!
# Which variables are read again

The declaration of a variable is printed whatever its names and its fuzzy sets are. A source says
only some of that, and it turns every ramp the right way round. Numbers are compared by value here,
so that a zero may lose its sign on the way and an undefined number is never read again.

* `FuzzySet.Sayable`: the sets that sources say, with ramps that do not fall and defined numbers;
* `FuzzySet.sayable_of_beq`: a set that equals one that was read is among them;
* `FuzzySet.Sayable.oriented_beq`: and each of them equals the one that is read of its text;
* `Variable.parse_text_oriented`: what is read of the text of a variable;
* `exists_parse_text_beq_iff`: the variables that are read again.
-/

namespace FuzzyInference

open Grammar

variable {α : Type} [Scalar α]

/-! ## Fuzzy sets -/

/-- A set of the functions that the language has. Its ramps do not fall, and its numbers are
defined. -/
inductive FuzzySet.Sayable : FuzzySet α → Prop
  | linear {a b : α} (rises : a ≤ b) : Sayable (.linear a b)
  | triangular {a b c : α} (left : Scalar.Defined a) (peak : Scalar.Defined b)
      (right : Scalar.Defined c) : Sayable (.triangular a b c)
  | trapezoid {a b c d : α} (left : Scalar.Defined a) (leftTop : Scalar.Defined b)
      (rightTop : Scalar.Defined c) (right : Scalar.Defined d) : Sayable (.trapezoid a b c d)
  | inverted {m : FuzzySet α} (inner : m.Sayable) : Sayable (.inverted m)

namespace FuzzySet

theorem Sayable.worded {m : FuzzySet α} (h : m.Sayable) : m.Worded := by
  induction h with
  | linear => exact .linear _ _
  | triangular => exact .triangular _ _ _
  | trapezoid => exact .trapezoid _ _ _ _
  | inverted _ ih => exact .inverted ih

variable [Scalar.Comparable α]

theorem Sayable.defined {m : FuzzySet α} (h : m.Sayable) : ∀ x ∈ m.numbers, Scalar.Defined x := by
  induction h with
  | linear rises =>
    have ends := Scalar.Ordered.defined_of_le rises
    simpa [numbers] using ends
  | triangular left peak right => simpa [numbers] using ⟨left, peak, right⟩
  | trapezoid left leftTop rightTop right =>
    simpa [numbers] using ⟨left, leftTop, rightTop, right⟩
  | inverted _ ih =>
    rw [numbers]
    exact ih

/-- A number that equals something is defined. -/
theorem defined_of_beq {a b : α} (h : (a == b) = true) : Scalar.Defined b :=
  (Scalar.Ordered.defined_of_le (Scalar.Comparable.beq_iff.1 h).2).1

/-- A ramp that is read as one does not fall. -/
theorem le_of_ramp_eq {a b x y : α} (ramp : FuzzySet.ramp a b = .linear a b)
    (foot : (a == x) = true) (top : (b == y) = true) : x ≤ y := by
  obtain ⟨before, foot⟩ := Scalar.Comparable.beq_iff.1 foot
  obtain ⟨top, -⟩ := Scalar.Comparable.beq_iff.1 top
  have rises : a ≤ b := by
    by_cases hab : a < b
    · exact (Scalar.Comparable.lt_iff.1 hab).1
    · by_cases hba : b < a
      · rw [FuzzySet.ramp, if_neg hab, if_pos hba] at ramp
        cases ramp
      · rw [FuzzySet.ramp, if_neg hab, if_neg hba, step] at ramp
        cases ramp
        exact Scalar.Ordered.le_trans before foot
  exact Scalar.Ordered.le_trans (Scalar.Ordered.le_trans foot rises) top

/-- A ramp that does not fall is read as an equal one. -/
theorem ramp_beq {a b : α} (rises : a ≤ b) : (FuzzySet.ramp a b == .linear a b) = true := by
  obtain ⟨foot, top⟩ := Scalar.Ordered.defined_of_le rises
  by_cases hab : a < b
  · rw [FuzzySet.ramp, if_pos hab]
    exact Bool.and_eq_true_iff.2 ⟨foot, top⟩
  · have back : b ≤ a := by
      by_contra apart
      exact hab (Scalar.Comparable.lt_iff.2 ⟨rises, apart⟩)
    have hba : ¬ b < a := by
      intro below
      exact (Scalar.Comparable.lt_iff.1 below).2 rises
    rw [FuzzySet.ramp, if_neg hab, if_neg hba, step]
    exact Bool.and_eq_true_iff.2 ⟨foot, Scalar.Comparable.beq_iff.2 ⟨rises, back⟩⟩

theorem sayable_of_beq {s m : FuzzySet α} (h : ReadableSet s) (same : (s == m) = true) :
    m.Sayable := by
  induction h generalizing m with
  | linear ramp =>
    cases m with
    | linear x y =>
      obtain ⟨foot, top⟩ := Bool.and_eq_true_iff.1 same
      exact .linear (le_of_ramp_eq ramp foot top)
    | _ => cases same
  | triangular a b c =>
    cases m with
    | triangular x y z =>
      obtain ⟨rest, right⟩ := Bool.and_eq_true_iff.1 same
      obtain ⟨left, peak⟩ := Bool.and_eq_true_iff.1 rest
      exact .triangular (defined_of_beq left) (defined_of_beq peak) (defined_of_beq right)
    | _ => cases same
  | trapezoid a b c d =>
    cases m with
    | trapezoid x y z u =>
      obtain ⟨rest, right⟩ := Bool.and_eq_true_iff.1 same
      obtain ⟨rest, rightTop⟩ := Bool.and_eq_true_iff.1 rest
      obtain ⟨left, leftTop⟩ := Bool.and_eq_true_iff.1 rest
      exact .trapezoid (defined_of_beq left) (defined_of_beq leftTop) (defined_of_beq rightTop)
        (defined_of_beq right)
    | _ => cases same
  | inverted _ ih =>
    cases m with
    | inverted k => exact .inverted (ih same)
    | _ => cases same

/-- What is read of the text of the set equals it. -/
theorem Sayable.oriented_beq {m : FuzzySet α} (h : m.Sayable) : (m.oriented == m) = true := by
  induction h with
  | linear rises => exact ramp_beq rises
  | triangular left peak right =>
    exact Bool.and_eq_true_iff.2 ⟨Bool.and_eq_true_iff.2 ⟨left, peak⟩, right⟩
  | trapezoid left leftTop rightTop right =>
    have top := Bool.and_eq_true_iff.2 ⟨Bool.and_eq_true_iff.2 ⟨left, leftTop⟩, rightTop⟩
    exact Bool.and_eq_true_iff.2 ⟨top, right⟩
  | inverted _ ih => exact ih

end FuzzySet

/-! ## Variables -/

theorem beq_iff_forall₂ {β : Type} [BEq β] {xs ys : List β} :
    (xs == ys) = true ↔ List.Forall₂ (fun x y => (x == y) = true) xs ys := by
  induction xs generalizing ys with
  | nil => cases ys <;> simp
  | cons x xs ih =>
    cases ys with
    | nil => simp
    | cons y ys => rw [List.cons_beq_cons, Bool.and_eq_true, List.forall₂_cons, ih]

theorem Term.beq_iff {s t : Term α} :
    (s == t) = true ↔ s.name = t.name ∧ (s.fuzzySet == t.fuzzySet) = true := by
  refine Iff.trans Bool.and_eq_true_iff ?_
  rw [decide_eq_true_iff]

/-- Equal variables have equal terms in the same order. -/
theorem Variable.beq_iff {v w : Variable α} :
    (v == w) = true ↔
      v.name = w.name ∧ List.Forall₂ (fun s t => (s == t) = true) v.terms w.terms := by
  refine Iff.trans Bool.and_eq_true_iff ?_
  rw [decide_eq_true_iff, beq_iff_forall₂]

/-- The variable that is read of the text of one. -/
def Variable.oriented (v : Variable α) : Variable α where
  name := v.name
  terms := v.terms.map Term.oriented
  distinct := by
    rw [List.map_map]
    exact v.distinct

theorem Variable.oriented_beq [Scalar.Comparable α] {v : Variable α}
    (h : ∀ t ∈ v.terms, t.fuzzySet.Sayable) : (v.oriented == v) = true := by
  apply Variable.beq_iff.2
  refine ⟨rfl, ?_⟩
  rw [oriented, List.forall₂_map_left_iff, List.forall₂_same]
  intro t ht
  exact Term.beq_iff.2 ⟨rfl, (h t ht).oriented_beq⟩

theorem Variable.sayable_of_beq [Scalar.Comparable α] {w v : Variable α}
    (h : ∀ t ∈ w.terms, IsName t.name ∧ ReadableSet t.fuzzySet) (same : (w == v) = true) :
    ∀ t ∈ v.terms, IsName t.name ∧ t.fuzzySet.Sayable := by
  obtain ⟨-, terms⟩ := Variable.beq_iff.1 same
  intro t ht
  obtain ⟨i, bound, rfl⟩ := List.getElem_of_mem ht
  obtain ⟨lengths, each⟩ := List.forall₂_iff_get.1 terms
  have bound' : i < w.terms.length := by omega
  obtain ⟨names, sets⟩ := Term.beq_iff.1 (each i bound' bound)
  obtain ⟨name, fuzzySet⟩ := h w.terms[i] (List.getElem_mem bound')
  exact ⟨names ▸ name, FuzzySet.sayable_of_beq fuzzySet sets⟩

variable [Literal α]

/-- Of the text of a variable a variable is read, with every ramp the right way round. -/
theorem Variable.parse_text_oriented {v : Variable α} (name : IsName v.name)
    (names : ∀ t ∈ v.terms, IsName t.name) (sets : ∀ t ∈ v.terms, t.fuzzySet.Worded)
    (reads : ∀ t ∈ v.terms, ∀ x ∈ t.fuzzySet.numbers, ReadsBack x) :
    (parse .standard v.text).toExcept = .ok ⟨[], [v.oriented]⟩ := by
  obtain ⟨ws, spells, body⟩ := writesStatement_definition name names sets reads
  have program : DerivesProgram (lexemes v.text.toList)
      (⟨[], [v.oriented]⟩ : Document α).sentences := by
    rw [spells.lexemes_eq]
    exact .semicolon body .nil
  exact toExcept_parse_of_derives program

variable [Scalar.Comparable α]

/-- A variable is read again from its own text, as the one statement of it, without an error and
with equal numbers, if and only if all its names are names and its fuzzy sets are among those that
sources say. -/
theorem exists_parse_text_beq_iff (v : Variable α)
    (reads : ∀ t ∈ v.terms, ∀ x ∈ t.fuzzySet.numbers, Scalar.Defined x → ReadsBack x) :
    (∃ w, (parse .standard v.text).toExcept = .ok ⟨[], [w]⟩ ∧ (w == v) = true) ↔
      IsName v.name ∧ ∀ t ∈ v.terms, IsName t.name ∧ t.fuzzySet.Sayable := by
  constructor
  · rintro ⟨w, read, same⟩
    have document := (Parsing.toExcept_eq_ok_iff.1 read).2
    have member : w ∈ (parse .standard v.text : Parsing α).document.definitions := by
      rw [document]
      exact List.mem_singleton.2 rfl
    obtain ⟨name, terms⟩ := (FunctionTable.keeps_ofBuiltIns _).readable_of_mem_definitions member
    obtain ⟨names, -⟩ := Variable.beq_iff.1 same
    exact ⟨names ▸ name, Variable.sayable_of_beq terms same⟩
  · rintro ⟨name, terms⟩
    refine ⟨v.oriented, ?_, Variable.oriented_beq fun t ht => (terms t ht).2⟩
    apply Variable.parse_text_oriented name
    · intro t ht
      exact (terms t ht).1
    · intro t ht
      exact (terms t ht).2.worded
    · intro t ht x hx
      exact reads t ht x hx ((terms t ht).2.defined x hx)

/-- A variable with a step between a zero and its negative, a ramp without an end, and an inverted
set. -/
def outside : Variable Float where
  name := "outside"
  terms := [⟨"positive", .linear 0 (-0)⟩, ⟨"hot", .linear 30 Scalar.posInf⟩,
    ⟨"mild", .inverted (.inverted (.trapezoid (-5) 5 10 20))⟩]
  distinct := by decide +kernel

/-- The step is read again as one at zero, which is equal to its negative. -/
theorem exists_parse_text_beq_iff_signed_zeros :
    (∀ t ∈ outside.terms, ∀ x ∈ t.fuzzySet.numbers, Scalar.Defined x → ReadsBack x) ∧
      ∃ w, (parse .standard outside.text).toExcept = .ok ⟨[], [w]⟩ ∧ (w == outside) = true := by
  have reads : ∀ t ∈ outside.terms, ∀ x ∈ t.fuzzySet.numbers, Scalar.Defined x → ReadsBack x := by
    have all : ∀ t ∈ outside.terms, ∀ x ∈ t.fuzzySet.numbers, ReadsBack x := by decide +kernel
    intro t ht x hx _
    exact all t ht x hx
  have names : IsName outside.name ∧ ∀ t ∈ outside.terms, IsName t.name := by decide +kernel
  have sets : ∀ t ∈ outside.terms, t.fuzzySet.Sayable := by
    have trapezoid : FuzzySet.Sayable (.trapezoid (-5) 5 10 20 : FuzzySet Float) :=
      .trapezoid (by decide +kernel) (by decide +kernel) (by decide +kernel) (by decide +kernel)
    simpa [outside] using ⟨.linear (by decide +kernel), .linear (by decide +kernel),
      trapezoid.inverted.inverted⟩
  refine ⟨reads, (exists_parse_text_beq_iff outside reads).2 ⟨names.1, ?_⟩⟩
  intro t ht
  exact ⟨names.2 t ht, sets t ht⟩

end FuzzyInference
