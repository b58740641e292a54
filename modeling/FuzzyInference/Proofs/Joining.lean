import FuzzyInference.Number.Binary64
import FuzzyInference.Proofs.Comments
import FuzzyInference.Proofs.Recovery
import FuzzyInference.Proofs.Scanning

/-!
# Sources on consecutive lines

* `Position.below`: a place some lines further down;
* `tokenize_append_newline`: the tokens of two sources with a line break between them;
* `attempts_append`: what stands behind a semicolon is read by itself, wrong as it may be;
* `parse_append_newline`: so the document and the errors are those of the two sources.
-/

namespace FuzzyInference

variable {α : Type}

/-! ## Lines further down -/

/-- The place in the same column some lines further down. -/
def Position.below (lines : Nat) (p : Position) : Position := { p with line := p.line + lines }

def Token.below (lines : Nat) (t : Token) : Token := { t with position := t.position.below lines }

/-- The error some lines further down. Its message and its cause stay as they are. -/
def ParseError.below (lines : Nat) (e : ParseError) : ParseError :=
  { e with position := e.position.below lines }

def Attempt.below (lines : Nat) (a : Attempt α) : Attempt α :=
  { a with start := a.start.below lines, error := a.error.map (·.below lines) }

theorem Attempt.below_zero (a : Attempt α) : a.below 0 = a := by
  obtain ⟨start, statement, error⟩ := a
  cases error <;> rfl

theorem map_below_zero (attempts : List (Attempt α)) : attempts.map (·.below 0) = attempts :=
  (List.map_congr_left fun a _ => a.below_zero).trans (List.map_id attempts)

theorem Position.behind_below (lines : Nat) (p : Position) (text : List Char) :
    (p.below lines).behind text = (p.behind text).below lines := by
  induction text generalizing p with
  | nil => rfl
  | cons c cs ih =>
    have first : (p.below lines).behind [c] = (p.behind [c]).below lines := by
      by_cases hc : c = '\n'
      · subst hc
        simp [behind_newline, below, Nat.add_right_comm]
      · simp [behind, below, hc]
    rw [behind_cons, first, ih, ← behind_cons]

theorem Position.line_behind (p : Position) (text : List Char) :
    (p.behind text).line = p.line + text.count '\n' := by
  induction text generalizing p with
  | nil => rfl
  | cons c cs ih =>
    rw [behind_cons, ih]
    by_cases hc : c = '\n'
    · subst hc
      simp only [behind_newline, List.count_cons_self]
      omega
    · rw [List.count_cons_of_ne hc]
      simp [behind, hc]

/-! ## Tokens -/

theorem scan_below (lines : Nat) (text : List Char) (place : Position) :
    scan (place.below lines) text = (scan place text).map (·.below lines) := by
  induction text using lexeme_induction generalizing place with
  | nil => rw [scan_nil, scan_nil, List.map_nil]
  | blank c text hb ih =>
    rw [scan_blank hb, scan_blank hb, Position.behind_below, ih]
  | punctuation c text hp ih =>
    rw [scan_punctuation hp, scan_punctuation hp, Position.behind_below, ih, List.map_cons]
    rfl
  | word w text hne hw ht ih =>
    rw [scan_word hne hw ht, scan_word hne hw ht, Position.behind_below, ih, List.map_cons]
    rfl

/-- Line breaks stay where they are, inside comments too. -/
theorem count_newline_blankFrom (state : CommentState) (text : List Char) :
    (blankFrom state text).count '\n' = text.count '\n' := by
  fun_induction blankFrom state text with
  | _ => simp_all [List.count_cons]

/-- A line break ends a comment of its line, and is not inside a block comment here. -/
theorem blankFrom_newline {state : CommentState} (h : state ≠ .block) (rest : List Char) :
    blankFrom state ('\n' :: rest) = '\n' :: blankFrom .outside rest := by
  cases state with
  | outside => exact (blankFrom_outside (.inl (by decide))).1
  | line => rw [blankFrom]
  | block => contradiction

theorem tokenize_append_newline {a b : String}
    (closed : commentStateAfter .outside a.toList ≠ .block) :
    tokenize (a ++ "\n" ++ b) =
      tokenize a ++ (tokenize b).map (·.below (a.toList.count '\n' + 1)) := by
  have text : (a ++ "\n" ++ b).toList = a.toList ++ '\n' :: b.toList := by simp
  have noMark : NoMark ('\n' :: b.toList) := noMark_cons (by decide) (by decide) _
  have place : ((Position.start.behind (blankFrom .outside a.toList)).behind ['\n']) =
      Position.start.below (a.toList.count '\n' + 1) := by
    rw [Position.behind_newline, Position.line_behind, count_newline_blankFrom]
    rfl
  rw [tokenize_eq_scan, tokenize_eq_scan, tokenize_eq_scan, text, blankFrom_append noMark,
    blankFrom_newline closed, scan_append (boundary_blank isBlank_newline _),
    scan_blank isBlank_newline, place, scan_below]

/-! ## Attempts -/

namespace Correspondence

/-- A source and the same one some lines further down, with further statements behind it. -/
def below (lines : Nat) (further : List Token)
    (starts : ∀ {t}, further.head? = some t → t.kind.OpensStatement) : Correspondence where
  place p q := q = p.below lines
  word := Eq
  upper same := congrArg String.toUpper same
  name same _ := same
  column _ same := same ▸ rfl
  further := further
  starts := starts

variable {lines : Nat} {further : List Token}
  {starts : ∀ {t}, further.head? = some t → t.kind.OpensStatement}

theorem below_aligned {c d : Cursor} (h : d.rest = c.rest.map (·.below lines) ++ further)
    (ends : further = [] → d.endPosition = c.endPosition.below lines) :
    (below lines further starts).Aligned c d := by
  refine ⟨⟨_, ?_, h⟩, ends⟩
  exact List.forall₂_map_right_iff.2 (List.forall₂_same.2 fun t _ => ⟨rfl, rfl⟩)

theorem SameError.eq_below {e f : ParseError} (h : (below lines further starts).SameError e f) :
    f = e.below lines := by
  obtain ⟨problem, place⟩ := e
  obtain ⟨problem', place'⟩ := f
  obtain ⟨same, rfl⟩ := h
  obtain rfl := same.eq fun _ _ word => word
  rfl

theorem SameAttempt.eq_below {J : Prop} {a b : Attempt α}
    (h : (below lines further starts).SameAttempt J a b) (hj : J) : b = a.below lines := by
  obtain ⟨start, statement, error⟩ := a
  obtain ⟨start', statement', error'⟩ := b
  obtain ⟨rfl, rfl, errors⟩ := h
  cases errors hj with
  | none => rfl
  | some same => rw [same.eq_below]; rfl

theorem map_eq_below {J : Prop} {as bs : List (Attempt α)}
    (h : List.Forall₂ ((below lines further starts).SameAttempt J) as bs) (hj : J) :
    bs = as.map (·.below lines) := by
  induction h with
  | nil => rfl
  | cons same _ ih => rw [List.map_cons, ← ih, same.eq_below hj]

end Correspondence

variable [Scalar α]

open Correspondence

theorem readStatements_below {lines : Nat} {c d : Cursor} (h : d.rest = c.rest.map (·.below lines))
    (ends : d.endPosition = c.endPosition.below lines) :
    (readStatements (α := α) .standard d).1 =
      (readStatements .standard c).1.map (·.below lines) := by
  have side : (below lines [] nofun).Aligned c d :=
    below_aligned (h.trans (List.append_nil _).symm) fun _ => ends
  obtain ⟨bs, e, read, same, left, -⟩ := readStatements_aligned (α := α) side
  have settled : (below lines [] nofun).Settled c := .inl rfl
  rw [read, readStatements_nil (left.rest_eq settled), List.append_nil, map_eq_below same settled]

theorem endPosition_append_below {lines : Nat} (tokens : List Token) {further : List Token}
    (nonempty : further ≠ []) :
    (Cursor.ofTokens (tokens ++ further.map (·.below lines))).endPosition =
      (Cursor.ofTokens further).endPosition.below lines := by
  have last := List.getLast?_eq_getLast_of_ne_nil nonempty
  simp [Cursor.ofTokens, last, Token.below]

theorem StartsStatement.below {tokens : List Token} (h : StartsStatement tokens) (lines : Nat) :
    StartsStatement (tokens.map (·.below lines)) := by
  cases tokens with
  | nil => exact h
  | cons t ts => exact h

/-- Statements behind a semicolon are read by themselves, whatever came before it. -/
theorem attempts_append {tokens further : List Token}
    (ended : ∀ t ∈ tokens.getLast?, t.kind = .semicolon)
    (starts : further = [] ∨ StartsStatement further) (lines : Nat) :
    (parseTokens .standard (tokens ++ further.map (·.below lines)) : Parsing α).attempts =
      (parseTokens .standard tokens : Parsing α).attempts ++
        (parseTokens .standard further : Parsing α).attempts.map (·.below lines) := by
  rcases starts with rfl | starts
  · have empty : (parseTokens .standard [] : Parsing α).attempts = [] := by
      rw [parseTokens, readStatements_nil rfl]
    rw [empty, List.map_nil, List.map_nil, List.append_nil, List.append_nil]
  · have starts' := starts.below lines
    have side : (below 0 _ starts'.opens).Aligned (.ofTokens tokens)
        (.ofTokens (tokens ++ further.map (·.below lines))) := by
      refine below_aligned ?_ fun empty => absurd empty starts'.ne_nil
      exact congrArg (· ++ _) (List.map_id _).symm
    obtain ⟨bs, e, read, same, left, ends⟩ := readStatements_aligned (α := α) side
    have settled : (below 0 _ starts'.opens).Settled (.ofTokens tokens) := .inr ended
    have behind := readStatements_below (α := α) (c := .ofTokens further) (left.rest_eq settled)
      (ends.trans (endPosition_append_below tokens starts.ne_nil))
    rw [attempts_parseTokens, read, map_eq_below same settled, behind]
    exact congrArg (· ++ _) (map_below_zero _)

/-! ## Sources -/

omit [Scalar α] in
theorem filterMap_error_below (lines : Nat) (attempts : List (Attempt α)) :
    (attempts.map (·.below lines)).filterMap (·.error) =
      (attempts.filterMap (·.error)).map (·.below lines) := by
  rw [List.filterMap_map, List.map_filterMap]
  rfl

omit [Scalar α] in
theorem filterMap_statement_below (lines : Nat) (attempts : List (Attempt α)) :
    (attempts.map (·.below lines)).filterMap (·.statement) = attempts.filterMap (·.statement) := by
  rw [List.filterMap_map]
  rfl

/-- Two sources with a line break between them are read like each of them by itself. The first one
ends in a semicolon outside comments, and the second one starts with a statement if it is not
empty. What is wrong with the second one is wrong as many lines further down as the first one
has. -/
theorem parse_append_newline {a b : String} (closed : commentStateAfter .outside a.toList ≠ .block)
    (ended : (tokenize a).getLast?.map (·.kind) = some .semicolon)
    (starts : tokenize b = [] ∨ StartsStatement (tokenize b)) :
    (parse .standard (a ++ "\n" ++ b) : Parsing α).document =
        (parse .standard a).document ++ (parse .standard b).document ∧
      (parse .standard (a ++ "\n" ++ b) : Parsing α).errors =
        (parse .standard a : Parsing α).errors ++
          (parse .standard b : Parsing α).errors.map (·.below (a.toList.count '\n' + 1)) := by
  have last : ∀ t ∈ (tokenize a).getLast?, t.kind = .semicolon := by
    intro t ht
    rw [Option.mem_def.1 ht] at ended
    exact Option.some.inj ended
  have attempts := attempts_append (α := α) last starts (a.toList.count '\n' + 1)
  rw [← tokenize_append_newline closed] at attempts
  constructor
  · have statements := congrArg (List.filterMap (·.statement)) attempts
    rw [List.filterMap_append, filterMap_statement_below] at statements
    exact Parsing.document_append statements
  · have errors := congrArg (List.filterMap (·.error)) attempts
    rwa [List.filterMap_append, filterMap_error_below] at errors

/-- A rule without `THEN`, with a comment behind it. -/
def ruleWithoutThen : String := "IF room IS hot\n  fan IS on; // all day"

def ruleWithoutIs : String := "IF room cold THEN fan IS off;"

theorem parse_append_newline_two_errors :
    commentStateAfter .outside ruleWithoutThen.toList ≠ .block ∧
      (tokenize ruleWithoutThen).getLast?.map (·.kind) = some .semicolon ∧
      StartsStatement (tokenize ruleWithoutIs) ∧
      (parse .standard (ruleWithoutThen ++ "\n" ++ ruleWithoutIs) : Parsing Float).document =
        (parse .standard ruleWithoutThen).document ++ (parse .standard ruleWithoutIs).document ∧
      (parse .standard (ruleWithoutThen ++ "\n" ++ ruleWithoutIs) : Parsing Float).errors =
        (parse .standard ruleWithoutThen : Parsing Float).errors ++
          (parse .standard ruleWithoutIs : Parsing Float).errors.map (·.below 2) := by
  have closed : commentStateAfter .outside ruleWithoutThen.toList ≠ .block := by decide +kernel
  have ended : (tokenize ruleWithoutThen).getLast?.map (·.kind) = some .semicolon := by
    decide +kernel
  have starts : StartsStatement (tokenize ruleWithoutIs) := by decide +kernel
  have lines : ruleWithoutThen.toList.count '\n' + 1 = 2 := by decide +kernel
  have joined := parse_append_newline (α := Float) (b := ruleWithoutIs) closed ended (.inr starts)
  rw [lines] at joined
  exact ⟨closed, ended, starts, joined⟩

end FuzzyInference
