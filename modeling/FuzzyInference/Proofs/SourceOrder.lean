import FuzzyInference.Proofs.Alignment
import FuzzyInference.Proofs.ErrorPlaces
import FuzzyInference.Proofs.Progress
import FuzzyInference.Proofs.Spelling
import Mathlib.Order.Basic

/-!
# Errors in the order of their source

* `Position` is ordered by lines, and by columns inside a line;
* `Token.Before`: how far two tokens of a source are apart at least. `pairwise_before_scan` says it
  for all tokens of a source;
* `ErrorPlace.start_le`, `ErrorPlace.le_next`: no place of an error lies before the statement or
  behind the start of the next one;
* `errors_in_source_order`: so the errors of a source are in the order of their places.
-/

namespace FuzzyInference

/-! ## The order of positions -/

namespace Position

variable {p q : Position}

/-- Positions are compared by lines first, and by columns inside a line. -/
instance : Preorder Position where
  le p q := p.line < q.line ∨ p.line = q.line ∧ p.column ≤ q.column
  le_refl p := .inr ⟨rfl, Nat.le_refl _⟩
  le_trans p q r := by
    intro hpq hqr
    omega

theorem le_iff : p ≤ q ↔ p.line < q.line ∨ p.line = q.line ∧ p.column ≤ q.column := Iff.rfl

theorem le_of_column_le (line : p.line = q.line) (column : p.column ≤ q.column) : p ≤ q :=
  le_iff.2 (.inr ⟨line, column⟩)

def right (p : Position) : Position := { p with column := p.column + 1 }

theorem le_right (p : Position) : p ≤ p.right := le_of_column_le rfl (Nat.le_succ _)

theorem right_mono (h : p ≤ q) : p.right ≤ q.right := by
  rw [le_iff] at h ⊢
  simp only [right]
  omega

/-- A line break goes further than one column. -/
theorem right_le_behind (p : Position) (c : Char) : p.right ≤ p.behind [c] := by
  rw [le_iff]
  by_cases hc : c = '\n' <;> simp [right, behind, hc]

theorem le_behind (p : Position) (text : List Char) : p ≤ p.behind text := by
  induction text generalizing p with
  | nil => exact le_refl p
  | cons c rest ih =>
    rw [behind_cons]
    calc p
      _ ≤ p.right := p.le_right
      _ ≤ p.behind [c] := p.right_le_behind c
      _ ≤ (p.behind [c]).behind rest := ih _

end Position

/-! ## Tokens one behind the other -/

def Token.stop (t : Token) : Position :=
  { t.position with column := t.position.column + t.text.length }

/-- The token `u` starts where `t` stops or later. If `t` is a name and `u` is one of the words that
start a statement, then there is something between them. -/
structure Token.Before (t u : Token) : Prop where
  some : 0 < t.text.length
  stop : t.stop ≤ u.position
  apart : t.kind = .identifier → u.kind.OpensStatement → t.placeBehind ≤ u.position

section

variable {t u : Token} {place : Position} {text : List Char}

theorem Token.placeBehind_eq (t : Token) : t.placeBehind = t.stop.right := rfl

theorem Token.position_le_stop (t : Token) : t.position ≤ t.stop :=
  Position.le_of_column_le rfl (Nat.le_add_right _ _)

theorem Token.Before.right (h : t.Before u) : t.position.right ≤ u.position := by
  have stop : t.position.right ≤ t.stop :=
    Position.le_of_column_le rfl (Nat.add_le_add_left h.some _)
  exact stop.trans h.stop

theorem Token.Before.position_le (h : t.Before u) : t.position ≤ u.position :=
  t.position.le_right.trans h.right

theorem not_opensStatement_punctuation {c : Char} (h : isPunctuation c = true) :
    ¬ (TokenKind.ofText c.toString).OpensStatement := by
  rcases isPunctuation_eq_true_iff.1 h with rfl | rfl | rfl | rfl <;> decide +kernel

theorem le_of_mem_scan (h : u ∈ scan place text) : place ≤ u.position := by
  induction text using lexeme_induction generalizing place with
  | nil => simp at h
  | blank c text blank ih =>
    rw [scan_blank blank] at h
    exact (place.le_behind [c]).trans (ih h)
  | punctuation c text mark ih =>
    rw [scan_punctuation mark] at h
    rcases List.mem_cons.1 h with rfl | h
    · exact le_refl place
    · exact (place.le_behind [c]).trans (ih h)
  | word w text nonempty chars boundary ih =>
    rw [scan_word nonempty chars boundary] at h
    rcases List.mem_cons.1 h with rfl | h
    · exact le_refl place
    · exact (place.le_behind w).trans (ih h)

/-- Where no word runs on, only a punctuation mark stands without a gap. -/
theorem right_le_of_mem_scan (ends : Boundary text) (h : u ∈ scan place text)
    (opens : u.kind.OpensStatement) : place.right ≤ u.position := by
  induction text using lexeme_induction with
  | nil => simp at h
  | blank c text blank =>
    rw [scan_blank blank] at h
    exact (place.right_le_behind c).trans (le_of_mem_scan h)
  | punctuation c text mark =>
    rw [scan_punctuation mark] at h
    rcases List.mem_cons.1 h with rfl | h
    · exact absurd opens (not_opensStatement_punctuation mark)
    · exact (place.right_le_behind c).trans (le_of_mem_scan h)
  | word w text nonempty chars =>
    obtain ⟨c, cs, rfl⟩ := List.exists_cons_of_ne_nil nonempty
    have stop := boundary_cons_iff.1 ends
    rw [chars c (by simp)] at stop
    cases stop

theorem pairwise_before_scan (place : Position) (text : List Char) :
    (scan place text).Pairwise Token.Before := by
  induction text using lexeme_induction generalizing place with
  | nil => simp
  | blank c text blank ih =>
    rw [scan_blank blank]
    exact ih _
  | punctuation c text mark ih =>
    rw [scan_punctuation mark]
    apply List.Pairwise.cons _ (ih _)
    intro u hu
    have stop : Token.stop ⟨c.toString, place⟩ = place.right := by simp [Token.stop, Position.right]
    refine ⟨by simp, ?_, ?_⟩
    · rw [stop]
      exact (place.right_le_behind c).trans (le_of_mem_scan hu)
    · intro name
      exact absurd name (ofText_punctuation mark)
  | word w text nonempty chars boundary ih =>
    rw [scan_word nonempty chars boundary]
    apply List.Pairwise.cons _ (ih _)
    intro u hu
    have stop : Token.stop ⟨String.ofList w, place⟩ = place.behind w := by
      rw [Position.behind_of_not_mem (newline_not_mem_word chars), Token.stop, String.length_ofList]
    refine ⟨?_, ?_, ?_⟩
    · rw [String.length_ofList]
      exact List.length_pos_iff.2 nonempty
    · rw [stop]
      exact le_of_mem_scan hu
    · intro _ opens
      rw [Token.placeBehind_eq, stop]
      exact right_le_of_mem_scan boundary hu opens

end

/-! ## Cursors in a source -/

/-- The tokens still to come are those of a source, and so is the place of the last one. -/
structure Cursor.Placed (c : Cursor) : Prop where
  ordered : c.rest.Pairwise Token.Before
  ending : ∀ t, c.rest.getLast? = some t → c.endPosition = t.position

theorem Cursor.rest_ofTokens (tokens : List Token) : (Cursor.ofTokens tokens).rest = tokens := rfl

theorem placed_ofTokens {tokens : List Token} (ordered : tokens.Pairwise Token.Before) :
    (Cursor.ofTokens tokens).Placed where
  ordered := ordered
  ending t last := by
    rw [Cursor.rest_ofTokens] at last
    simp [Cursor.ofTokens, last]

theorem placed_tokenize (source : String) : (Cursor.ofTokens (tokenize source)).Placed := by
  apply placed_ofTokens
  rw [tokenize_eq_scan]
  exact pairwise_before_scan _ _

section

variable {s c d : Cursor} {t v : Token} {p : Position}

theorem Cursor.position_of_cons {ts : List Token} (h : c.rest = t :: ts) :
    c.position = t.position := by
  simp [Cursor.position, Cursor.peek, h]

namespace Cursor.Placed

theorem of_follows (h : c.Placed) (later : d.Follows c) : d.Placed where
  ordered := h.ordered.sublist later.rest.sublist
  ending t last := by
    obtain ⟨used, hc⟩ := later.rest
    have nonempty : d.rest ≠ [] := by
      intro empty
      simp [empty] at last
    rw [later.endPosition]
    apply h.ending
    rw [← hc, List.getLast?_append_of_ne_nil _ nonempty, last]

theorem position_le_of_mem (h : c.Placed) (ht : t ∈ c.rest) : c.position ≤ t.position := by
  have ordered := h.ordered
  cases hc : c.rest with
  | nil => simp [hc] at ht
  | cons first after =>
    rw [position_of_cons hc]
    rw [hc] at ht ordered
    rcases List.mem_cons.1 ht with rfl | ht
    · exact le_refl t.position
    · exact ((List.pairwise_cons.1 ordered).1 t ht).position_le

/-- At the end of the source the place of its last token is taken. -/
theorem position_le (h : c.Placed) (later : d.Follows c) (nonempty : c.rest ≠ []) :
    c.position ≤ d.position := by
  cases hd : d.rest with
  | nil =>
    have last := h.ending _ (List.getLast?_eq_some_getLast nonempty)
    have place : d.position = c.endPosition := by
      rw [← later.endPosition]
      simp [Cursor.position, Cursor.peek, hd]
    rw [place, last]
    exact h.position_le_of_mem (List.getLast_mem nonempty)
  | cons u us =>
    rw [position_of_cons hd]
    apply h.position_le_of_mem
    apply later.rest.subset
    simp [hd]

theorem before (h : s.Placed) (between : t.Between s d) (hv : v ∈ d.rest) : t.Before v := by
  obtain ⟨used, hs, ht⟩ := between
  have ordered := h.ordered
  rw [hs, List.pairwise_append] at ordered
  exact ordered.2.2 t ht v hv

end Cursor.Placed

/-! ## Bounds on the places of errors -/

theorem ErrorPlace.start_le (h : ErrorPlace s d p) (placed : s.Placed) (later : d.Follows s)
    (nonempty : s.rest ≠ []) : s.position ≤ p := by
  have start {t : Token} (between : t.Between s d) : s.position ≤ t.position := by
    obtain ⟨used, hs, ht⟩ := between
    apply placed.position_le_of_mem
    rw [hs]
    exact List.mem_append_left _ ht
  cases h with
  | next => exact placed.position_le later nonempty
  | used between => exact start between
  | @behind t between name =>
    calc s.position
      _ ≤ t.position := start between
      _ ≤ t.stop := t.position_le_stop
      _ ≤ t.placeBehind := t.stop.le_right

/-- The next statement starts with a word of its own, or behind a semicolon. -/
theorem head_skipStatement {tokens : List Token} (h : (skipStatement tokens).head? = some v) :
    (v ∈ tokens ∧ v.kind.OpensStatement) ∨
      ∃ before mark after, tokens = before ++ mark :: v :: after := by
  fun_induction skipStatement tokens with
  | case1 => simp at h
  | case2 mark rest semicolon =>
    obtain ⟨after, rfl⟩ := List.head?_eq_some_iff.1 h
    exact .inr ⟨[], mark, after, rfl⟩
  | case3 first rest ifWord =>
    obtain rfl := Option.some.inj h
    exact .inl ⟨by simp, .inl ifWord⟩
  | case4 first rest defineWord =>
    obtain rfl := Option.some.inj h
    exact .inl ⟨by simp, .inr defineWord⟩
  | case5 first rest _ _ _ ih =>
    rcases ih h with ⟨hv, opens⟩ | ⟨before, mark, after, rfl⟩
    · exact .inl ⟨List.mem_cons_of_mem _ hv, opens⟩
    · exact .inr ⟨first :: before, mark, after, rfl⟩

theorem ErrorPlace.le_next (h : ErrorPlace s d p) (placed : s.Placed) (later : d.Follows s)
    (head : (skipStatement d.rest).head? = some v) : p ≤ v.position := by
  have hv : v ∈ d.rest := (skipStatement_suffix d.rest).subset (List.mem_of_head? head)
  cases h with
  | next => exact (placed.of_follows later).position_le_of_mem hv
  | used between => exact (placed.before between hv).position_le
  | @behind t between name =>
    rcases head_skipStatement head with ⟨-, opens⟩ | ⟨before, mark, after, hd⟩
    · exact (placed.before between hv).apart name opens
    · -- The mark in between takes up the column that may be missing behind the name.
      have ordered := (placed.of_follows later).ordered
      rw [hd, List.pairwise_append, List.pairwise_cons] at ordered
      have markBefore : mark.Before v := ordered.2.1.1 v (by simp)
      have nameBefore : t.Before mark := placed.before between (by simp [hd])
      calc t.placeBehind
        _ = t.stop.right := t.placeBehind_eq
        _ ≤ mark.position.right := Position.right_mono nameBefore.stop
        _ ≤ v.position := markBefore.right

end

/-! ## All statements -/

section

variable {α : Type} {table : FunctionTable α} {c d : Cursor} {rounds : List (Round α)}

/-- Neither the first statement nor its error is placed behind the start of the second one. -/
structure Attempt.Precedes (a b : Attempt α) : Prop where
  start : a.start ≤ b.start
  error : ∀ e, a.error = some e → e.position ≤ b.start

theorem Rounds.rest_ne_nil (run : Rounds table c rounds d)
    {round : Round α} (h : round ∈ rounds) : c.rest ≠ [] := by
  cases run with
  | done => cases h
  | next start =>
    rw [start]
    exact List.cons_ne_nil _ _

/-- A round read one statement, which starts with the first token that it uses up. At most one of
the two places recorded an error for that statement, and the attempt has it. -/
structure Round.RecordsOnce (table : FunctionTable α) (round : Round α) (first : Token)
    (behind : Cursor) : Prop where
  starts : round.used.head? = some first
  reads : round.attempt = (readStatement table first behind).1
  error : round.attempt.error =
    (recorded table first behind).inRule.or (recorded table first behind).inSource
  once : (recorded table first behind).inRule = none ∨ (recorded table first behind).inSource = none

theorem Rounds.recordsOnce (run : Rounds table c rounds d) :
    ∀ round ∈ rounds, ∃ first behind, round.RecordsOnce table first behind := by
  have nonempty := run.used_ne_nil
  induction run with
  | done => nofun
  | @next c d first after used rounds start uses others ih =>
    obtain ⟨here, behind⟩ := List.forall_mem_cons.1 nonempty
    apply List.forall_mem_cons.2 ⟨?_, ih behind⟩
    obtain ⟨t, ts, rfl⟩ := List.exists_cons_of_ne_nil here
    rw [start] at uses
    obtain ⟨rfl, -⟩ := List.cons.inj uses
    exact ⟨first, c.advance, rfl, rfl, error_readStatement table first c.advance,
      recorded_once table first c.advance⟩

theorem Round.RecordsOnce.position_head {round : Round α} {first : Token} {behind : Cursor}
    (h : round.RecordsOnce table first behind) :
    round.used.head?.map (·.position) = some round.attempt.start := by
  rw [h.starts, h.reads, start_readStatement, Option.map_some]

variable [Scalar α]

/-- The error of the first round is placed before the next statement. -/
theorem le_position_of_error {first : Token} {after : List Token} (hc : c.rest = first :: after)
    (placed : c.Placed) {e : ParseError}
    (h : (readStatement (α := α) .standard first c.advance).1.error = some e)
    (more : (readStatement (α := α) .standard first c.advance).2.1.rest ≠ []) :
    e.position ≤ (readStatement (α := α) .standard first c.advance).2.1.position := by
  obtain ⟨d, later, place, left⟩ := locates_readStatement hc e h
  obtain ⟨v, vs, hv⟩ := List.exists_cons_of_ne_nil more
  rw [Cursor.position_of_cons hv]
  apply place.le_next placed later
  rw [← left, hv, List.head?_cons]

theorem Rounds.precedes (run : Rounds .standard c rounds d) (placed : c.Placed) :
    (∀ round ∈ rounds, c.position ≤ round.attempt.start) ∧
      rounds.Pairwise fun a b => a.attempt.Precedes b.attempt := by
  induction run with
  | done => exact ⟨nofun, .nil⟩
  | @next c d first after used rounds start uses others ih =>
    have later := (readStatement (α := α) .standard first c.advance).2.2.trans c.advance_follows
    obtain ⟨starts, ordered⟩ := ih (placed.of_follows later)
    have here : (readStatement (α := α) .standard first c.advance).1.start = c.position := by
      rw [start_readStatement, Cursor.position_of_cons start]
    have forward := placed.position_le later (by simp [start])
    constructor
    · intro round hr
      rcases List.mem_cons.1 hr with rfl | hr
      · exact here.symm.le
      · exact forward.trans (starts round hr)
    · apply List.Pairwise.cons _ ordered
      intro round hr
      have more := others.rest_ne_nil hr
      constructor
      · rw [here]
        exact forward.trans (starts round hr)
      · intro e error
        exact (le_position_of_error start placed error more).trans (starts round hr)

theorem Rounds.start_le_error (run : Rounds .standard c rounds d) (placed : c.Placed) :
    ∀ round ∈ rounds, ∀ e, round.attempt.error = some e → round.attempt.start ≤ e.position := by
  induction run with
  | done => nofun
  | @next c d first after used rounds start uses others ih =>
    have later := (readStatement (α := α) .standard first c.advance).2.2.trans c.advance_follows
    intro round hr e error
    rcases List.mem_cons.1 hr with rfl | hr
    · obtain ⟨d, stopped, place, -⟩ := locates_readStatement start e error
      rw [start_readStatement, ← Cursor.position_of_cons start]
      exact place.start_le placed stopped (by simp [start])
    · exact ih (placed.of_follows later) round hr e error

end

/-- The rounds of a source are one attempt each, and at most one error is recorded for an attempt,
be it in the reading of a rule or in that of the source. The error is placed neither before the
first token of its statement nor behind the first one of the next statement, so the errors are in
the order of their places. -/
theorem errors_in_source_order {α : Type} [Scalar α] (source : String) :
    let parsed : Parsing α := parse .standard source
    (∃ rounds d, Rounds .standard (.ofTokens (tokenize source)) rounds d ∧
      rounds.map (·.attempt) = parsed.attempts ∧
      (rounds.map (·.used)).flatten = tokenize source ∧
      ∀ round ∈ rounds, round.used.head?.map (·.position) = some round.attempt.start ∧
        ∃ first behind, round.RecordsOnce .standard first behind) ∧
    parsed.errors = parsed.attempts.filterMap (·.error) ∧
    (∀ a ∈ parsed.attempts, ∀ e, a.error = some e → a.start ≤ e.position) ∧
    (parsed.attempts.Pairwise fun a b => ∀ e, a.error = some e → e.position ≤ b.start) ∧
    parsed.errors.Pairwise fun e f => e.position ≤ f.position := by
  intro parsed
  obtain ⟨rounds, run, attempts⟩ := exists_rounds (.standard : FunctionTable α)
    (.ofTokens (tokenize source))
  have placed := placed_tokenize source
  have attempts : rounds.map (·.attempt) = parsed.attempts := attempts
  have pieces : (rounds.map (·.used)).flatten = tokenize source := by
    have used := run.flatten_used
    rw [run.rest_eq_nil, List.append_nil, Cursor.rest_ofTokens] at used
    exact used
  have lower : ∀ a ∈ parsed.attempts, ∀ e, a.error = some e → a.start ≤ e.position := by
    rw [← attempts, List.forall_mem_map]
    exact run.start_le_error placed
  have ordered : parsed.attempts.Pairwise Attempt.Precedes := by
    rw [← attempts, List.pairwise_map]
    exact (run.precedes placed).2
  have errors : parsed.errors.Pairwise fun e f => e.position ≤ f.position := by
    apply List.pairwise_filterMap.2
    apply ordered.imp_of_mem
    intro a b _ hb precedes e first f second
    exact (precedes.error e first).trans (lower b hb f second)
  have behind : parsed.attempts.Pairwise fun a b => ∀ e, a.error = some e → e.position ≤ b.start :=
    ordered.imp fun precedes => precedes.error
  refine ⟨⟨rounds, _, run, attempts, pieces, ?_⟩, rfl, lower, behind, errors⟩
  intro round hr
  obtain ⟨first, next, once⟩ := run.recordsOnce round hr
  exact ⟨once.position_head, first, next, once⟩

end FuzzyInference
