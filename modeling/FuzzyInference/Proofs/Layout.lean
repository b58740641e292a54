import FuzzyInference.Number.Binary64
import FuzzyInference.Proofs.Numerals
import FuzzyInference.Proofs.Recovery

/-!
# Layout

* `Gap`: a blank, and then blanks and whole comments in any mix;
* `Joined`: words one behind the other, with a gap between each two of them. `Joined.lexemes_eq`:
  these are the words of the text;
* `Recased`: the same word, or the same reserved word with its letters in another case;
* `attempts_of_words`: what comes of two sources with corresponding words;
* `parse_joined`: so a source may be laid out anew, with other comments and with its reserved words
  in any case.
-/

namespace FuzzyInference

/-! ## Between the words -/

/-- Blanks and whole comments, in any mix. A comment to the end of its line takes the line break
along, and a block comment ends at its first closer. -/
inductive Filler : List Char → Prop
  | nil : Filler []
  | blank {c : Char} {rest : List Char} (hc : Text.isBlank c = true) (others : Filler rest) :
      Filler (c :: rest)
  | line {note rest : List Char} (h : '\n' ∉ note) (others : Filler rest) :
      Filler ('/' :: '/' :: (note ++ '\n' :: rest))
  | block {note rest : List Char} (h : ¬ ['*', '/'] <:+: note) (others : Filler rest) :
      Filler ('/' :: '*' :: (note ++ '*' :: '/' :: rest))

/-- What may stand between two words: a blank first, and then whatever fills the space. -/
def Gap (gap : List Char) : Prop :=
  ∃ c rest, gap = c :: rest ∧ Text.isBlank c = true ∧ Filler rest

/-- The text is the words one behind the other, with a gap between each two of them. -/
inductive Joined : List String → List Char → Prop
  | nil : Joined [] []
  | single (word : String) : Joined [word] word.toList
  | cons {word next : String} {words : List String} {gap text : List Char} (between : Gap gap)
      (others : Joined (next :: words) text) :
      Joined (word :: next :: words) (word.toList ++ (gap ++ text))

theorem Gap.boundary {gap : List Char} (h : Gap gap) (rest : List Char) :
    Boundary (gap ++ rest) := by
  obtain ⟨c, filler, rfl, hc, -⟩ := h
  exact boundary_blank hc _

/-- With comments blanked out, only blanks are left of a text in front of `rest`, which stands
outside comments. -/
def Clears (state : CommentState) (text rest : List Char) : Prop :=
  ∃ blanks, (∀ c ∈ blanks, Text.isBlank c = true) ∧
    blankFrom state text = blanks ++ blankFrom .outside rest

namespace Clears

variable {state next : CommentState} {text later rest : List Char}

theorem refl (rest : List Char) : Clears .outside rest rest := ⟨[], nofun, rfl⟩

/-- One more character is cleared if it is blanked out, or blank by itself. -/
theorem cons {c : Char} (hc : Text.isBlank c = true)
    (h : blankFrom state text = c :: blankFrom next later) (others : Clears next later rest) :
    Clears state text rest := by
  obtain ⟨blanks, hb, ht⟩ := others
  exact ⟨c :: blanks, List.forall_mem_cons.2 ⟨hc, hb⟩, by rw [h, ht, List.cons_append]⟩

/-- The two characters of an opener or a closer are cleared together. -/
theorem pair (h : blankFrom state text = ' ' :: ' ' :: blankFrom next later)
    (others : Clears next later rest) : Clears state text rest := by
  obtain ⟨blanks, hb, ht⟩ := others
  have two : ∀ c ∈ ' ' :: ' ' :: blanks, Text.isBlank c = true := by
    simpa [isBlank_space] using hb
  exact ⟨_, two, by rw [h, ht, List.cons_append, List.cons_append]⟩

theorem lineNote {note : List Char} (h : '\n' ∉ note) (others : Clears .outside later rest) :
    Clears .line (note ++ '\n' :: later) rest := by
  induction note with
  | nil =>
    apply others.cons isBlank_newline
    rw [List.nil_append, blankFrom]
  | cons c note ih =>
    obtain ⟨other, h⟩ := List.ne_and_not_mem_of_not_mem_cons h
    exact (ih h).cons isBlank_space (blankFrom_line other.symm).1

theorem blockNote {note : List Char} (h : ¬ ['*', '/'] <:+: note)
    (others : Clears .outside later rest) :
    Clears .block (note ++ '*' :: '/' :: later) rest := by
  induction note with
  | nil =>
    apply others.pair
    rw [List.nil_append, blankFrom]
  | cons c note ih =>
    have inside := ih fun hi => h (List.infix_cons hi)
    by_cases hc : c = '\n'
    · subst hc
      apply inside.cons isBlank_newline
      rw [List.cons_append, blankFrom]
    · -- The closer behind the note is not completed from inside it.
      have open' : c ≠ '*' ∨ (note ++ '*' :: '/' :: later).head? ≠ some '/' := by
        by_cases star : c = '*'
        · right
          intro slash
          cases note with
          | nil => simp at slash
          | cons d ds =>
            obtain rfl : d = '/' := by simpa using slash
            apply h
            rw [star]
            exact (List.prefix_append ['*', '/'] ds).isInfix
        · exact .inl star
      exact inside.cons isBlank_space (blankFrom_block open' hc).1

theorem filler {gap : List Char} (h : Filler gap) (rest : List Char) :
    Clears .outside (gap ++ rest) rest := by
  induction h with
  | nil => exact refl rest
  | @blank c gap hc others ih =>
    have noSlash : c ≠ '/' := by
      rintro rfl
      revert hc
      decide
    exact ih.cons hc (blankFrom_outside (.inl noSlash)).1
  | @line note gap h others ih =>
    refine pair ?_ (lineNote h ih)
    simp [blankFrom]
  | @block note gap h others ih =>
    refine pair ?_ (blockNote h ih)
    simp [blankFrom]

/-- What is blanked out holds no words. -/
theorem lexemes_eq (h : Clears .outside text rest) : lexemes text = lexemes rest := by
  obtain ⟨blanks, hb, ht⟩ := h
  rw [lexemes, lexemes, ht]
  clear ht
  generalize Position.start = place
  induction blanks generalizing place with
  | nil => exact map_text_scan _ _ _
  | cons c blanks ih =>
    obtain ⟨hc, hb⟩ := List.forall_mem_cons.1 hb
    rw [List.cons_append, scan_blank hc]
    exact (map_text_scan _ _ _).trans (ih hb place)

end Clears

theorem Gap.lexemes_eq {gap : List Char} (h : Gap gap) (rest : List Char) :
    lexemes (gap ++ rest) = lexemes rest := by
  obtain ⟨c, filler, rfl, hc, hf⟩ := h
  exact (Clears.filler (.blank hc hf) rest).lexemes_eq

/-- Joined words stay the words they are. -/
theorem Joined.lexemes_eq {words : List String} {text : List Char} (h : Joined words text)
    (each : ∀ w ∈ words, IsWord w) : lexemes text = words := by
  induction h with
  | nil => exact lexemes_nil
  | single word =>
    have spelled := (each word List.mem_cons_self).spells [] boundary_nil
    rwa [List.append_nil, lexemes_nil] at spelled
  | cons between others ih =>
    obtain ⟨first, each⟩ := List.forall_mem_cons.1 each
    rw [first.spells _ (between.boundary _), between.lexemes_eq, ih each]
    rfl

theorem Joined.tokenize_eq {words : List String} {text : String} (h : Joined words text.toList)
    (each : ∀ w ∈ words, IsWord w) : (tokenize text).map (·.text) = words := by
  rw [map_text_tokenize, h.lexemes_eq each]

theorem isWord_of_mem_words {source word : String} (h : word ∈ (tokenize source).map (·.text)) :
    IsWord word := by
  obtain ⟨t, ht, rfl⟩ := List.mem_map.1 h
  exact isWord_of_mem_tokenize ht

/-! ## The case of reserved words -/

/-- The same word, or a reserved word with some of its letters in the other case. -/
def Recased (word other : String) : Prop :=
  word = other ∨ TokenKind.ofText word ≠ .identifier ∧ word.toUpper = other.toUpper

theorem Recased.toUpper_eq {word other : String} (h : Recased word other) :
    word.toUpper = other.toUpper := by
  rcases h with rfl | ⟨-, same⟩
  · rfl
  · exact same

theorem Recased.eq_of_identifier {word other : String} (h : Recased word other)
    (name : TokenKind.ofText word = .identifier) : word = other := by
  rcases h with same | ⟨reserved, -⟩
  · exact same
  · exact absurd name reserved

/-- The word of a kind is a punctuation mark or in upper case. -/
theorem TokenKind.text_shape {kind : TokenKind} (reserved : kind ≠ .identifier) :
    (∃ c, isPunctuation c = true ∧ kind.text.toList = [c]) ∨
      (kind.text.toList ≠ [] ∧ kind.text.toList.all (·.isUpper) = true) := by
  cases kind with
  | semicolon | openParen | closeParen | comma => exact .inl ⟨_, by decide, rfl⟩
  | identifier => contradiction
  | _ => exact .inr (by decide)

theorem isWord_of_letters {word : String} (nonempty : word.toList ≠ [])
    (letters : ∀ c ∈ word.toList, c.isAlpha = true) : IsWord word := by
  have chars : ∀ c ∈ word.toList, Numeral.IsChar c := fun c hc => .inr (.inl (letters c hc))
  have noSlash : '/' ∉ word.toList := fun hs => (chars _ hs).ne_slash rfl
  refine ⟨.inr ⟨nonempty, fun c hc => (chars c hc).isWordChar⟩, fun hl => ?_, fun hb => ?_⟩
  · exact noSlash (hl.subset (by simp))
  · exact noSlash (hb.subset (by simp))

theorem isWord_of_punctuation {c : Char} (h : isPunctuation c = true) : IsWord c.toString := by
  refine ⟨.inl ⟨c, h, rfl⟩, ?_⟩
  rcases isPunctuation_eq_true_iff.1 h with rfl | rfl | rfl | rfl <;> decide

/-- Reserved words are words of a source in any case. -/
theorem isWord_of_reserved {word : String} (h : TokenKind.ofText word ≠ .identifier) :
    IsWord word := by
  have upper : word.toList.map Char.toUpper = (TokenKind.ofText word).text.toList := by
    rw [← (TokenKind.ofText_eq_iff h).1 rfl, String.toUpper, String.toList_map]
  rcases TokenKind.text_shape h with ⟨mark, hm, ht⟩ | ⟨nonempty, letters⟩
  · rw [ht] at upper
    obtain ⟨c, hw, hc⟩ := List.map_eq_singleton_iff.1 upper
    have noLetter : mark.isUpper ≠ true := by
      rcases isPunctuation_eq_true_iff.1 hm with rfl | rfl | rfl | rfl <;> decide
    have same : c = mark := by
      rw [← hc] at noLetter
      exact (toUpper_eq_of_not_isUpper noLetter).symm.trans hc
    have single : word = mark.toString := by
      rw [← String.toList_inj, hw, same, Char.toString_eq_singleton, String.toList_singleton]
    rw [single]
    exact isWord_of_punctuation hm
  · apply isWord_of_letters
    · intro empty
      rw [empty, List.map_nil] at upper
      exact nonempty upper.symm
    · intro c hc
      apply isAlpha_of_isUpper_toUpper
      apply List.all_eq_true.1 letters
      rw [← upper]
      exact List.mem_map_of_mem hc

theorem Recased.isWord {word other : String} (h : Recased word other) (hw : IsWord word) :
    IsWord other := by
  rcases h with rfl | ⟨reserved, same⟩
  · exact hw
  · apply isWord_of_reserved
    rwa [← TokenKind.ofText_congr same]

theorem isWord_of_recased {words others : List String} (h : List.Forall₂ Recased words others)
    (each : ∀ w ∈ words, IsWord w) : ∀ w ∈ others, IsWord w := by
  induction h with
  | nil => exact each
  | cons recased _ ih =>
    obtain ⟨first, each⟩ := List.forall_mem_cons.1 each
    exact List.forall_mem_cons.2 ⟨recased.isWord first, ih each⟩

/-! ## Reading -/

theorem map_kind_text (tokens : List Token) : tokens.map (fun t => (t.kind, t.text)) =
    (tokens.map (·.text)).map fun word => (TokenKind.ofText word, word) := by
  rw [List.map_map]
  rfl

/-- Two sources whose reserved words may differ in case, whatever the places. -/
def Correspondence.recasing : Correspondence where
  place _ _ := True
  word := Recased
  upper := Recased.toUpper_eq
  name := Recased.eq_of_identifier
  column _ _ := trivial
  further := []
  starts := nofun

variable {α : Type}

open Correspondence

section Parsings

variable {R : Correspondence} {J : Prop} {p q : Parsing α}

theorem document_eq (h : List.Forall₂ (R.SameAttempt J) p.attempts q.attempts) :
    p.document = q.document := by
  rw [Parsing.document, Parsing.document, Parsing.statements, Parsing.statements,
    map_statement_eq h]

/-- Attempts that came out the same have corresponding errors in the same order. -/
theorem rel_errors (h : List.Forall₂ (R.SameAttempt J) p.attempts q.attempts) (hj : J) :
    List.Forall₂ R.SameError p.errors q.errors :=
  List.rel_filterMap (fun _ _ same => same.error hj) h

end Parsings

theorem map_message_cause_eq {R : Correspondence} {es fs : List ParseError}
    (h : List.Forall₂ R.SameError es fs) (words : ∀ x y, R.word x y → x = y) :
    es.map (fun e => (e.message, e.cause)) = fs.map (fun e => (e.message, e.cause)) := by
  induction h with
  | nil => rfl
  | cons same _ ih =>
    rw [List.map_cons, List.map_cons, ih, ParseError.message, ParseError.message, ParseError.cause,
      ParseError.cause, same.problem.eq words]

variable [Scalar α]

/-- Two sources with corresponding words come out the same, wherever the words stand. -/
theorem attempts_of_words {R : Correspondence} (anywhere : ∀ p q, R.place p q)
    (alone : R.further = []) {tokens others : List Token}
    (h : List.Forall₂ R.word (tokens.map (·.text)) (others.map (·.text))) :
    List.Forall₂ (R.SameAttempt True) (parseTokens .standard tokens : Parsing α).attempts
      (parseTokens .standard others : Parsing α).attempts := by
  rw [List.forall₂_map_left_iff, List.forall₂_map_right_iff] at h
  have side : R.Aligned (.ofTokens tokens) (.ofTokens others) := by
    refine ⟨⟨others, h.imp fun _ _ word => ⟨word, anywhere _ _⟩, ?_⟩, fun _ => anywhere _ _⟩
    rw [alone, List.append_nil]
    rfl
  have settled : R.Settled (.ofTokens tokens) := .inl alone
  obtain ⟨bs, e, read, same, left, -⟩ := readStatements_aligned (α := α) side
  rw [attempts_parseTokens, attempts_parseTokens, read,
    readStatements_nil ((left.rest_eq settled).trans alone), List.append_nil]
  exact same.imp fun _ _ same => same.mono fun _ => settled

/-- A source that is laid out anew, with other blanks and comments between its words, has the same
words, the same document and the same errors, up to their places. With reserved words in another
case besides, it still has the same document and as many errors. -/
theorem parse_joined (source text : String) :
    (Joined ((tokenize source).map (·.text)) text.toList →
      (tokenize text).map (fun t => (t.kind, t.text)) =
          (tokenize source).map (fun t => (t.kind, t.text)) ∧
        (parse .standard text : Parsing α).document = (parse .standard source).document ∧
        (parse .standard text : Parsing α).errors.map (fun e => (e.message, e.cause)) =
          (parse .standard source : Parsing α).errors.map (fun e => (e.message, e.cause))) ∧
      ∀ words, List.Forall₂ Recased ((tokenize source).map (·.text)) words →
        Joined words text.toList →
          (parse .standard text : Parsing α).document = (parse .standard source).document ∧
            (parse .standard text : Parsing α).errors.length =
              (parse .standard source : Parsing α).errors.length := by
  constructor
  · intro joined
    have same := joined.tokenize_eq fun _ => isWord_of_mem_words
    have words : List.Forall₂ Eq ((tokenize source).map (·.text))
        ((tokenize text).map (·.text)) := by
      rw [same, List.forall₂_eq_eq_eq]
    have attempts := attempts_of_words (α := α) (R := continuing [] nofun)
      (fun _ _ => trivial) rfl words
    have errors := map_message_cause_eq (rel_errors attempts trivial) fun _ _ word => word
    refine ⟨?_, (document_eq attempts).symm, errors.symm⟩
    rw [map_kind_text, map_kind_text, same]
  · intro words recased joined
    have same := joined.tokenize_eq (isWord_of_recased recased fun _ => isWord_of_mem_words)
    rw [← same] at recased
    have attempts := attempts_of_words (α := α) (R := recasing) (fun _ _ => trivial) rfl recased
    exact ⟨(document_eq attempts).symm, (rel_errors attempts trivial).length_eq.symm⟩

/-- A rule without `THEN`. -/
def plainRule : String := "IF sun IS up;"

/-- The words of `plainRule` with notes between them. -/
def notedRule : String := "IF sun // the real one\n IS\tup /* at noon */ ;"

/-- The words of `plainRule` in lower case, on two lines. -/
def lowerCaseRule : String := "if sun\nis up ;"

theorem parse_joined_notes_and_lower_case :
    ((tokenize notedRule).map (fun t => (t.kind, t.text)) =
        (tokenize plainRule).map (fun t => (t.kind, t.text)) ∧
      (parse .standard notedRule : Parsing Float).document =
        (parse .standard plainRule).document ∧
      (parse .standard notedRule : Parsing Float).errors.map (fun e => (e.message, e.cause)) =
        (parse .standard plainRule : Parsing Float).errors.map (fun e => (e.message, e.cause))) ∧
    (parse .standard lowerCaseRule : Parsing Float).document =
        (parse .standard plainRule).document ∧
      (parse .standard lowerCaseRule : Parsing Float).errors.length =
        (parse .standard plainRule : Parsing Float).errors.length := by
  have words : (tokenize plainRule).map (·.text) = ["IF", "sun", "IS", "up", ";"] := by
    rw [map_text_tokenize, plainRule]
    decide +kernel
  have blank {c : Char} (h : Text.isBlank c = true) : Gap [c] := ⟨c, [], rfl, h, .nil⟩
  have space : Filler [' '] := .blank (by decide) .nil
  constructor
  · have lineNote : Gap (' ' :: '/' :: '/' :: (" the real one".toList ++ '\n' :: [' '])) :=
      ⟨' ', _, rfl, by decide, .line (by decide) space⟩
    have blockNote : Gap (' ' :: '/' :: '*' :: (" at noon ".toList ++ '*' :: '/' :: [' '])) :=
      ⟨' ', _, rfl, by decide, .block (by decide) space⟩
    have text : notedRule.toList = "IF".toList ++ ([' '] ++ ("sun".toList ++
        ((' ' :: '/' :: '/' :: (" the real one".toList ++ '\n' :: [' '])) ++ ("IS".toList ++
        (['\t'] ++ ("up".toList ++ ((' ' :: '/' :: '*' :: (" at noon ".toList ++
        '*' :: '/' :: [' '])) ++ ";".toList))))))) := by simp [notedRule]
    refine (parse_joined (α := Float) plainRule notedRule).1 ?_
    rw [words, text]
    refine .cons (blank (by decide)) ?_
    refine .cons lineNote ?_
    refine .cons (blank (by decide)) ?_
    exact .cons blockNote (.single ";")
  · have text : lowerCaseRule.toList = "if".toList ++ ([' '] ++ ("sun".toList ++ (['\n'] ++
        ("is".toList ++ ([' '] ++ ("up".toList ++ ([' '] ++ ";".toList))))))) := by
      simp [lowerCaseRule]
    have recased := (parse_joined (α := Float) plainRule lowerCaseRule).2
    refine recased ["if", "sun", "is", "up", ";"] ?_ ?_
    · rw [words]
      have reserved : ∀ w ∈ ["IF", "IS"], TokenKind.ofText w ≠ .identifier := by decide +kernel
      have upper : "IF".toUpper = "if".toUpper ∧ "IS".toUpper = "is".toUpper := by
        simp only [String.toUpper, ← String.toList_inj, String.toList_map]
        decide
      simp [Recased, reserved, upper]
    · rw [text]
      refine .cons (blank (by decide)) ?_
      refine .cons (blank (by decide)) ?_
      refine .cons (blank (by decide)) ?_
      exact .cons (blank (by decide)) (.single ";")

end FuzzyInference
