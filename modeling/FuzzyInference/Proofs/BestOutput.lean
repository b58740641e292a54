import FuzzyInference.Proofs.Additions
import FuzzyInference.Proofs.Comparison
import FuzzyInference.Proofs.Meanings

/-!
# The best output

Outputs on a variable come in the order of their names, and one that is not above the best so far
never takes its place.

* `Leads`: an entry with the greatest degree, the first one by name of those that share it.
  `Leads.concat`: one more entry, `leads_foldl_better`: all of them;
* `Outputs.exists_leader`: the output that leads those on a variable is the best one, unless its
  degree is zero;
* `Outputs.best?_rel`: where outputs of equal degrees stand under the same names, the best ones do;
* `best_output_of_variable`: all of it, and that the order in which outputs came does not count.
-/

namespace FuzzyInference

open Scalar (Defined)

variable {α : Type} [Scalar α] [Scalar.Comparable α]

theorem beq_zero_congr {a b : α} (forth : a ≤ b) (back : b ≤ a) : (a == 0) = (b == 0) := by
  rw [Bool.eq_iff_iff, Scalar.Comparable.beq_iff, Scalar.Comparable.beq_iff]
  constructor
  · rintro ⟨low, high⟩
    exact ⟨Scalar.Ordered.le_trans back low, Scalar.Ordered.le_trans high forth⟩
  · rintro ⟨low, high⟩
    exact ⟨Scalar.Ordered.le_trans forth low, Scalar.Ordered.le_trans high back⟩

theorem exists_right_of_rel {β γ : Type} {R : β → γ → Prop} {x : Option β} {y : Option γ}
    (h : Option.Rel R x y) {b : β} (hb : x = some b) : ∃ c, y = some c ∧ R b c := by
  subst hb
  cases h with
  | some related => exact ⟨_, rfl, related⟩

theorem exists_left_of_rel {β γ : Type} {R : β → γ → Prop} {x : Option β} {y : Option γ}
    (h : Option.Rel R x y) {c : γ} (hc : y = some c) : ∃ b, x = some b ∧ R b c := by
  subst hc
  cases h with
  | some related => exact ⟨_, rfl, related⟩

/-! ## Entries in order -/

/-- Of all the entries this one has the greatest degree, and of those that share it this one is the
first by name. -/
structure Leads (entry : String × TermOutput α) (entries : List (String × TermOutput α)) :
    Prop where
  mem : entry ∈ entries
  greatest : ∀ other ∈ entries, other.2.degree ≤ entry.2.degree
  first : ∀ other ∈ entries, entry.2.degree ≤ other.2.degree → other = entry ∨ entry.1 < other.1

omit [Scalar.Comparable α] in
theorem Leads.defined [Scalar.Ordered α] {entry : String × TermOutput α}
    {entries : List (String × TermOutput α)} (h : Leads entry entries) : Defined entry.2.degree :=
  (Scalar.Ordered.defined_of_le (h.greatest entry h.mem)).1

/-- With one more entry, under a name behind all others, the better of the two leads. -/
theorem Leads.concat {entry next : String × TermOutput α} {entries : List (String × TermOutput α)}
    (h : Leads entry entries) (behind : ∀ other ∈ entries, other.1 < next.1)
    (defined : Defined next.2.degree) :
    Leads (if next.2.degree ≤ entry.2.degree then entry else next) (entries ++ [next]) := by
  split
  · next low =>
    refine ⟨List.mem_append_left _ h.mem, ?_, ?_⟩
    · simpa [or_imp, forall_and] using ⟨fun n o => h.greatest (n, o), low⟩
    · intro other member same
      rcases List.mem_append.1 member with member | member
      · exact h.first other member same
      · rw [List.mem_singleton.1 member]
        exact .inr (behind entry h.mem)
  · next above =>
    have higher := (Scalar.Ordered.le_total defined h.defined).resolve_left above
    refine ⟨List.mem_append_right _ List.mem_cons_self, ?_, ?_⟩
    · intro other member
      rcases List.mem_append.1 member with member | member
      · exact Scalar.Ordered.le_trans (h.greatest other member) higher
      · rw [List.mem_singleton.1 member]
        exact defined.le_refl
    · intro other member same
      rcases List.mem_append.1 member with member | member
      · exact absurd (Scalar.Ordered.le_trans same (h.greatest other member)) above
      · exact .inl (List.mem_singleton.1 member)

/-- The best of some entries, compared in the order of their names, leads. -/
theorem leads_foldl_better {entry : String × TermOutput α} {entries : List (String × TermOutput α)}
    (ordered : (entry :: entries).Pairwise fun e e' => e.1 < e'.1)
    (defined : ∀ e ∈ entry :: entries, Defined e.2.degree) :
    ∃ n, Leads (n, (entries.map (·.2)).foldl Outputs.better entry.2) (entry :: entries) := by
  induction entries using List.reverseRecOn with
  | nil =>
    refine ⟨entry.1, List.mem_cons_self, ?_, ?_⟩
    · intro other member
      rw [List.mem_singleton.1 member]
      exact (defined entry List.mem_cons_self).le_refl
    · intro other member _
      exact .inl (List.mem_singleton.1 member)
  | append_singleton entries next ih =>
    rw [← List.cons_append, List.pairwise_append] at ordered
    rw [← List.cons_append, List.forall_mem_append, List.forall_mem_singleton] at defined
    obtain ⟨before, -, behind⟩ := ordered
    obtain ⟨n, leads⟩ := ih before defined.1
    have leads := leads.concat (fun e he => behind e he next List.mem_cons_self) defined.2
    rw [List.map_append, List.foldl_append, List.map_singleton, List.foldl_cons, List.foldl_nil,
      Outputs.better]
    split at leads
    · next low =>
      rw [if_pos low]
      exact ⟨n, leads⟩
    · next above =>
      rw [if_neg above]
      exact ⟨next.1, leads⟩

/-! ## Outputs on a variable -/

namespace Outputs

variable {o o' : Outputs α} {v n n' : String} {output output' : TermOutput α}

/-- The output under this name has the greatest degree of all on the variable, and it is the first
by name of those that share it. -/
structure Leader (o : Outputs α) (v n : String) (output : TermOutput α) : Prop where
  found : o.term? v n = some output
  greatest : ∀ m other, o.term? v m = some other → other.degree ≤ output.degree
  first : ∀ m other, o.term? v m = some other → output.degree ≤ other.degree → m = n ∨ n < m

def degreesOn (o : Outputs α) (v : String) : Set α :=
  {y | ∃ n output, o.term? v n = some output ∧ output.degree = y}

omit [Scalar.Comparable α] in
theorem Leader.isGreatest (h : o.Leader v n output) : IsGreatest (o.degreesOn v) output.degree := by
  refine ⟨⟨n, output, h.found, rfl⟩, ?_⟩
  rintro y ⟨m, other, found, rfl⟩
  exact h.greatest m other found

omit [Scalar α] [Scalar.Comparable α] in
/-- The outputs on a variable stand in the order of their names. -/
theorem exists_entries (o : Outputs α) (v : String) :
    ∃ entries : List (String × TermOutput α),
      ((o.get? v).map (·.values)).getD [] = entries.map (·.2) ∧
      (entries.Pairwise fun e e' => e.1 < e'.1) ∧
      ∀ n output, (n, output) ∈ entries ↔ o.term? v n = some output := by
  cases found : o.get? v with
  | none => exact ⟨[], rfl, .nil, by simp [term?, found]⟩
  | some terms =>
    refine ⟨terms.toList, values_eq_map_toList terms, ?_, ?_⟩
    · exact Std.TreeMap.ordered_keys_toList.imp compare_lt_iff_lt.1
    · intro n output
      rw [Std.TreeMap.mem_toList_iff_getElem?_eq_some, term?, found, Option.bind_some]

/-- Where there are outputs on a variable, one of them leads, and it is the best one unless its
degree is zero. -/
theorem exists_leader (defined : ∀ n output, o.term? v n = some output → Defined output.degree) :
    (∀ n, o.term? v n = none) ∧ o.best? v = none ∨
      ∃ n output, o.Leader v n output ∧
        o.best? v = if output.degree == 0 then none else some output := by
  obtain ⟨entries, values, ordered, member⟩ := exists_entries o v
  cases entries with
  | nil =>
    left
    constructor
    · intro n
      rw [Option.eq_none_iff_forall_ne_some]
      intro output found
      cases (member n output).2 found
    · unfold best?
      split
      · next first rest ahead =>
        rw [ahead] at values
        cases values
      · rfl
  | cons entry entries =>
    right
    have every : ∀ e ∈ entry :: entries, Defined e.2.degree :=
      fun e he => defined e.1 e.2 ((member e.1 e.2).1 he)
    obtain ⟨n, leads⟩ := leads_foldl_better ordered every
    refine ⟨n, _, ⟨(member _ _).1 leads.mem, ?_, ?_⟩, ?_⟩
    · intro m other found
      exact leads.greatest (m, other) ((member m other).2 found)
    · intro m other found same
      rcases leads.first (m, other) ((member m other).2 found) same with equal | behind
      · exact .inl (congrArg Prod.fst equal)
      · exact .inr behind
    · unfold best?
      cases found : (o.get? v).map (·.values) with
      | none =>
        rw [found] at values
        cases values
      | some outputs =>
        rw [found] at values
        obtain rfl : outputs = (entry :: entries).map (·.2) := values
        rfl

/-- Where outputs of equal degrees stand under the same names, the best ones do. -/
theorem best?_rel {R : TermOutput α → TermOutput α → Prop}
    (degrees : ∀ b b', R b b' → b.degree ≤ b'.degree ∧ b'.degree ≤ b.degree)
    (same : ∀ n, Option.Rel R (o.term? v n) (o'.term? v n)) :
    Option.Rel R (o.best? v) (o'.best? v) := by
  have across {n output} (found : o.term? v n = some output) := exists_right_of_rel (same n) found
  have back {n output'} (found : o'.term? v n = some output') := exists_left_of_rel (same n) found
  have defined (n output) (found : o.term? v n = some output) : Defined output.degree := by
    obtain ⟨output', -, related⟩ := across found
    exact (Scalar.Ordered.defined_of_le (degrees _ _ related).1).1
  have defined' (n output) (found : o'.term? v n = some output) : Defined output.degree := by
    obtain ⟨output, -, related⟩ := back found
    exact (Scalar.Ordered.defined_of_le (degrees _ _ related).1).2
  rcases exists_leader defined with ⟨missing, best⟩ | ⟨n, output, leads, best⟩ <;>
    rcases exists_leader defined' with ⟨missing', best'⟩ | ⟨n', output', leads', best'⟩
  · rw [best, best']
    exact .none
  · obtain ⟨output, found, -⟩ := back leads'.found
    cases (missing n').symm.trans found
  · obtain ⟨output', found, -⟩ := across leads.found
    cases (missing' n).symm.trans found
  · -- The leader on one side stands under a name that the other side has as well.
    obtain ⟨twin', found', related'⟩ := across leads.found
    obtain ⟨twin, found, related⟩ := back leads'.found
    have forth : output.degree ≤ output'.degree :=
      Scalar.Ordered.le_trans (degrees _ _ related').1 (leads'.greatest n twin' found')
    have reverse : output'.degree ≤ output.degree :=
      Scalar.Ordered.le_trans (degrees _ _ related).2 (leads.greatest n' twin found)
    have name : n = n' := by
      rcases leads.first n' twin found
        (Scalar.Ordered.le_trans forth (degrees _ _ related).2) with same | before
      · exact same.symm
      · rcases leads'.first n twin' found'
          (Scalar.Ordered.le_trans reverse (degrees _ _ related').1) with same | behind
        · exact same
        · exact absurd before (lt_asymm behind)
    subst name
    obtain rfl := Option.some.inj (found'.symm.trans leads'.found)
    rw [best, best', beq_zero_congr forth reverse]
    split
    · exact .none
    · exact .some related'

/-- The best output depends on nothing but the look-ups. -/
theorem best?_congr (defined : ∀ n output, o.term? v n = some output → Defined output.degree)
    (same : ∀ n, o.term? v n = o'.term? v n) : o.best? v = o'.best? v := by
  have equal : Option.Rel (fun b b' => b = b' ∧ Defined b.degree) (o.best? v) (o'.best? v) := by
    apply best?_rel
    · rintro b _ ⟨rfl, defined⟩
      exact ⟨defined.le_refl, defined.le_refl⟩
    · intro n
      rw [← same]
      cases found : o.term? v n with
      | none => exact .none
      | some b => exact .some ⟨rfl, defined n b found⟩
  generalize o.best? v = x, o'.best? v = y at equal
  cases equal with
  | none => rfl
  | some related => rw [related.1]

end Outputs

/-! ## Additions in any order -/

/-- The outputs are on terms of one name, with equal degrees, and all numbers have equal degrees in
their fuzzy sets. -/
structure TermOutput.Agrees (b b' : TermOutput α) : Prop where
  term : b.term = b'.term
  degree : (b.degree == b'.degree) = true
  membership : ∀ x, (b.fuzzySet.degree x == b'.fuzzySet.degree x) = true

theorem beq_of_isGreatest {s : Set α} {y y' : α} (h : IsGreatest s y) (h' : IsGreatest s y') :
    (y == y') = true :=
  Scalar.Comparable.beq_iff.2 ⟨h'.2 h.1, h.2 h'.1⟩

section

variable {firings firings' : List (Firing α)} {v n : String}

omit [Scalar α] [Scalar.Comparable α] in
theorem measures_perm (same : firings.Perm firings') (measure : Firing α → α) :
    measures firings v n measure = measures firings' v n measure := by
  ext y
  simp only [measures, same.mem_iff]

theorem defined_degree_collect (defined : ∀ f ∈ firings, Defined f.degree) (v n : String)
    (output : TermOutput α) (found : (Outputs.collect firings).term? v n = some output) :
    Defined output.degree :=
  defined_of_isGreatest ((Outputs.records_collect defined).output v n output found).degree

/-- In another order the same additions give outputs that agree on every term. -/
theorem term?_collect_rel (same : firings.Perm firings')
    (defined : ∀ f ∈ firings, Defined f.degree) :
    Option.Rel TermOutput.Agrees ((Outputs.collect firings).term? v n)
      ((Outputs.collect firings').term? v n) := by
  have records := Outputs.records_collect defined
  have records' := Outputs.records_collect fun f hf => defined f (same.mem_iff.2 hf)
  have known : ((Outputs.collect firings).term? v n).isSome ↔
      ((Outputs.collect firings').term? v n).isSome := by
    rw [records.pair, records'.pair]
    simp only [same.mem_iff]
  cases found : (Outputs.collect firings).term? v n with
  | none =>
    rw [found] at known
    rw [Option.not_isSome_iff_eq_none.1 fun present => Bool.noConfusion (known.2 present)]
    exact .none
  | some b =>
    rw [found] at known
    obtain ⟨b', found'⟩ := Option.isSome_iff_exists.1 (known.1 rfl)
    have sums := records.output v n b found
    have sums' := records'.output v n b' found'
    rw [found']
    refine .some ⟨sums.term.trans sums'.term.symm, ?_, fun x => ?_⟩
    · have degree := sums'.degree
      rw [← measures_perm same] at degree
      exact beq_of_isGreatest sums.degree degree
    · have membership := sums'.membership x
      rw [← measures_perm same] at membership
      exact beq_of_isGreatest (sums.membership x) membership

omit [Scalar.Comparable α] in
/-- Where no two additions are to one term, the order does not count at all. -/
theorem term?_collect_eq (same : firings.Perm firings')
    (apart : firings.Pairwise fun f g => ¬ g.On f.variableName f.term.name) :
    (Outputs.collect firings).term? v n = (Outputs.collect firings').term? v n := by
  rw [Outputs.term?_collect, Outputs.term?_collect]
  have same := same.filter (·.On v n)
  have apart := apart.filter (·.On v n)
  have on : ∀ f ∈ firings.filter (·.On v n), f.On v n := by
    intro f hf
    simpa using List.of_mem_filter hf
  generalize firings.filter (·.On v n) = fs at same apart on
  -- At most one addition is to the term.
  match fs with
  | [] => rw [List.nil_perm.1 same]
  | [f] => rw [List.singleton_perm.1 same]
  | f :: g :: fs =>
    have hf := on f List.mem_cons_self
    have hg := on g (List.mem_cons_of_mem f List.mem_cons_self)
    have other := (List.pairwise_cons.1 apart).1 g List.mem_cons_self
    rw [hf.1, hf.2] at other
    exact absurd hg other

end

/-- Whatever the outputs on a variable, as long as their degrees are defined: there is no best one
if there is none at all, or if the greatest of the degrees is zero. Else it is the one with the
greatest degree, and of several that share it the one whose name has the least bytes. An output that
was added goes by the name it stands under. The order in which outputs were added does not count:
the best one stays the same, and where rules on one term were joined in another order it still
agrees in its name, its degree and the degrees of all numbers. -/
theorem best_output_of_variable (v : String) :
    (∀ o : Outputs α, (∀ n output, o.term? v n = some output → Defined output.degree) →
      (o.best? v = none ↔ (∀ n, o.term? v n = none) ∨
        ∃ y, IsGreatest (o.degreesOn v) y ∧ (y == 0) = true) ∧
      (o.best? v ≠ none → ∃ n output, o.best? v = some output ∧ o.term? v n = some output ∧
        IsGreatest (o.degreesOn v) output.degree ∧
        ∀ m other, o.term? v m = some other → (other.degree == output.degree) = true → m ≠ n →
          utf8Bytes n < utf8Bytes m)) ∧
    ∀ firings firings' : List (Firing α), (∀ f ∈ firings, Defined f.degree) →
      firings.Perm firings' →
        (∀ n output, (Outputs.collect firings).term? v n = some output → output.term = n) ∧
        Option.Rel TermOutput.Agrees ((Outputs.collect firings).best? v)
          ((Outputs.collect firings').best? v) ∧
        ((firings.Pairwise fun f g => ¬ g.On f.variableName f.term.name) →
          (Outputs.collect firings).best? v = (Outputs.collect firings').best? v) := by
  constructor
  · intro o defined
    rcases Outputs.exists_leader defined with ⟨missing, best⟩ | ⟨n, output, leads, best⟩
    · exact ⟨⟨fun _ => .inl missing, fun _ => best⟩, fun present => absurd best present⟩
    · constructor
      · rw [best]
        constructor
        · intro h
          split at h
          · next zero => exact .inr ⟨output.degree, leads.isGreatest, zero⟩
          · cases h
        · rintro (missing | ⟨y, greatest, zero⟩)
          · cases (missing n).symm.trans leads.found
          · have equal := Scalar.Comparable.beq_iff.1 (beq_of_isGreatest leads.isGreatest greatest)
            rw [beq_zero_congr equal.1 equal.2, if_pos zero]
      · intro present
        rw [best] at present
        split at present
        · contradiction
        · next nonzero =>
          refine ⟨n, output, ?_, leads.found, leads.isGreatest, ?_⟩
          · rw [best, if_neg nonzero]
          · intro m other found equal different
            have share := (Scalar.Comparable.beq_iff.1 equal).2
            exact utf8Bytes_lt ((leads.first m other found share).resolve_left different)
  · intro firings firings' defined same
    refine ⟨?_, ?_, ?_⟩
    · intro n output found
      exact ((Outputs.records_collect defined).output v n output found).term
    · apply Outputs.best?_rel
      · intro b b' agrees
        exact Scalar.Comparable.beq_iff.1 agrees.degree
      · intro n
        exact term?_collect_rel same defined
    · intro apart
      apply Outputs.best?_congr
      · exact defined_degree_collect defined v
      · intro n
        exact term?_collect_eq same apart

/-- Two of three outputs on the fan share the greatest degree. On the vent it is zero. -/
def tiedAdditions : List (Firing Exact) :=
  [⟨"fan", ⟨"slow", .constant 0⟩, .negInf⟩,
    ⟨"fan", ⟨"fast", .linear (.finite 0) (.finite 1)⟩, .finite (1 / 2)⟩,
    ⟨"vent", ⟨"open", .constant 1⟩, .finite (-1)⟩,
    ⟨"fan", ⟨"brisk", .constant 1⟩, .finite (1 / 2)⟩,
    ⟨"vent", ⟨"shut", .constant 0⟩, 0⟩]

theorem best_output_of_variable_tie :
    (∀ f ∈ tiedAdditions, Defined f.degree) ∧
      (∃ n output, (Outputs.collect tiedAdditions).best? "fan" = some output ∧
        (Outputs.collect tiedAdditions).term? "fan" n = some output ∧
        IsGreatest ((Outputs.collect tiedAdditions).degreesOn "fan") output.degree ∧
        ∀ m other, (Outputs.collect tiedAdditions).term? "fan" m = some other →
          (other.degree == output.degree) = true → m ≠ n → utf8Bytes n < utf8Bytes m) ∧
      ((∀ n, (Outputs.collect tiedAdditions).term? "vent" n = none) ∨
        ∃ y, IsGreatest ((Outputs.collect tiedAdditions).degreesOn "vent") y ∧
          (y == 0) = true) ∧
      (Outputs.collect tiedAdditions).best? "fan" =
        (Outputs.collect tiedAdditions.reverse).best? "fan" := by
  have defined : ∀ f ∈ tiedAdditions, Defined f.degree := by decide +kernel
  have degrees := defined_degree_collect defined
  have leads : ((Outputs.collect tiedAdditions).best? "fan").isSome = true := by decide +kernel
  have idle : ((Outputs.collect tiedAdditions).best? "vent").isNone = true := by decide +kernel
  have fan := best_output_of_variable (α := Exact) "fan"
  refine ⟨defined, (fan.1 _ (degrees "fan")).2 (Option.isSome_iff_ne_none.1 leads), ?_, ?_⟩
  · have vent := (best_output_of_variable "vent").1 _ (degrees "vent")
    exact vent.1.1 (Option.isNone_iff_eq_none.1 idle)
  · exact (fan.2 _ _ defined (List.reverse_perm _).symm).2.2 (by decide)

end FuzzyInference
