import FuzzyInference.Proofs.Scanning
import FuzzyInference.Proofs.Vocabulary
import Mathlib.Data.List.DropRight

/-!
# The words of a source and their places

* `Piece`: a part of a text with all that stands before it and behind it, and `Piece.place`, the
  lines and characters in front of it;
* `Piece.IsLexeme`: a punctuation mark, or a run of other characters that goes on on neither side;
* `Lexes`: all the lexemes of a text, in order. `lexes_scan`: one scan finds these;
* `FoundIn`: every word of a line is found in it at the next character that is not blank;
* `tokenize_exact`: so the tokens of a source are the lexemes of what is outside comments.
-/

namespace FuzzyInference

/-- A part of a text, and what is on both sides of it. -/
@[ext] structure Piece where
  before : List Char
  word : List Char
  after : List Char

namespace Piece

def text (p : Piece) : List Char := p.before ++ (p.word ++ p.after)

/-- A line further down for every line break in front, and a column further on for every character
between the last line break and the piece. -/
def place (p : Piece) : Position :=
  ⟨1 + p.before.count '\n', 1 + (p.before.rtakeWhile (· ≠ '\n')).length⟩

def token (p : Piece) : Token := ⟨String.ofList p.word, p.place⟩

/-- The second piece starts no earlier than the first one ends. -/
def EndsBefore (p q : Piece) : Prop := p.before.length + p.word.length ≤ q.before.length

/-- A punctuation mark, or a run of other characters that are not blank, as long as it can be. -/
inductive IsLexeme : Piece → Prop
  | mark {before after : List Char} {c : Char} (h : isPunctuation c = true) :
      IsLexeme ⟨before, [c], after⟩
  | run {before word after : List Char} (ne_nil : word ≠ [])
      (inside : ∀ c ∈ word, isWordChar c = true)
      (left : ∀ c, before.getLast? = some c → isWordChar c = false) (right : Boundary after) :
      IsLexeme ⟨before, word, after⟩

/-- The piece is a part of `text`, which stands behind `before`. -/
def LiesIn (p : Piece) (before text : List Char) : Prop :=
  ∃ skipped, p.before = before ++ skipped ∧ text = skipped ++ (p.word ++ p.after)

theorem liesIn_nil_iff {p : Piece} {text : List Char} : p.LiesIn [] text ↔ p.text = text := by
  constructor
  · rintro ⟨skipped, hb, ht⟩
    rw [Piece.text, hb, ht, List.nil_append]
  · rintro rfl
    exact ⟨p.before, rfl, rfl⟩

theorem LiesIn.behind {p : Piece} {before first rest : List Char}
    (h : p.LiesIn (before ++ first) rest) : p.LiesIn before (first ++ rest) := by
  obtain ⟨skipped, hb, ht⟩ := h
  exact ⟨first ++ skipped, by rw [hb, List.append_assoc], by rw [ht, List.append_assoc]⟩

/-- A piece of two texts starts in the first one, or it is a piece of the second one. -/
theorem LiesIn.cases {p : Piece} {before first rest : List Char}
    (h : p.LiesIn before (first ++ rest)) :
    p.LiesIn (before ++ first) rest ∨
      ∃ skipped c others, first = skipped ++ c :: others ∧ p.before = before ++ skipped ∧
        p.word ++ p.after = c :: (others ++ rest) := by
  obtain ⟨skipped, hb, ht⟩ := h
  rcases List.append_eq_append_iff.1 ht with ⟨more, hs, hr⟩ | ⟨others, hf, hp⟩
  · exact .inl ⟨more, by rw [hb, hs, List.append_assoc], hr⟩
  · cases others with
    | nil => exact .inl ⟨[], by rw [hb, hf]; simp, by simpa using hp.symm⟩
    | cons c cs => exact .inr ⟨skipped, c, cs, hf, hb, hp⟩

/-- The first character of a piece says what kind of lexeme it is. -/
theorem IsLexeme.starts {p : Piece} (h : p.IsLexeme) {c : Char} {rest : List Char}
    (first : p.word ++ p.after = c :: rest) :
    Text.isBlank c = false ∧
      (isPunctuation c = true → p.word = [c] ∧ p.after = rest) ∧
      (isWordChar c = true → (∀ d ∈ p.word, isWordChar d = true) ∧
        (∀ d, p.before.getLast? = some d → isWordChar d = false) ∧ Boundary p.after) := by
  cases h with
  | @mark before after d hd =>
    obtain ⟨rfl, rfl⟩ := List.cons.inj first
    refine ⟨not_isBlank_of_isPunctuation hd, fun _ => ⟨rfl, rfl⟩, fun hw => ?_⟩
    rw [(isWordChar_eq_true_iff.1 hw).2] at hd
    cases hd
  | @run before word after ne_nil inside left right =>
    obtain ⟨d, ds, rfl⟩ := List.exists_cons_of_ne_nil ne_nil
    obtain ⟨rfl, -⟩ := List.cons.inj first
    obtain ⟨hb, hp⟩ := isWordChar_eq_true_iff.1 (inside d List.mem_cons_self)
    refine ⟨hb, fun hd => ?_, fun _ => ⟨inside, left, right⟩⟩
    rw [hp] at hd
    cases hd

end Piece

/-! ## One scan finds them all -/

/-- These are the lexemes of `text`, which stands behind `before`: all of them and in order. -/
structure Lexes (before text : List Char) (ps : List Piece) : Prop where
  ordered : ps.Pairwise Piece.EndsBefore
  mem_iff : ∀ p, p ∈ ps ↔ p.IsLexeme ∧ p.LiesIn before text

namespace Lexes

variable {before first rest : List Char} {ps : List Piece}

theorem nil (before : List Char) : Lexes before [] [] := by
  refine ⟨.nil, fun p => ⟨nofun, ?_⟩⟩
  rintro ⟨lexeme, skipped, -, ht⟩
  obtain ⟨-, hp⟩ := List.append_eq_nil_iff.1 ht.symm
  cases lexeme with
  | mark => cases hp
  | run ne_nil => exact absurd (List.append_eq_nil_iff.1 hp).1 ne_nil

/-- No lexeme starts with a blank. -/
theorem blank {c : Char} (hc : Text.isBlank c = true) (h : Lexes (before ++ [c]) rest ps) :
    Lexes before (c :: rest) ps := by
  refine ⟨h.ordered, fun p => (h.mem_iff p).trans (and_congr_right fun lexeme => ?_)⟩
  constructor
  · exact fun inside => inside.behind
  · intro (inside : p.LiesIn before ([c] ++ rest))
    rcases inside.cases with inside | ⟨skipped, d, others, hf, -, hp⟩
    · exact inside
    · have same := (lexeme.starts hp).1
      rcases List.cons_eq_append_iff.1 hf with ⟨rfl, hd⟩ | ⟨more, -, hd⟩
      · rw [(List.cons.inj hd).1, hc] at same
        cases same
      · simp at hd

/-- A lexeme goes in front of others, if no other one starts in it. -/
theorem cons (lexeme : Piece.IsLexeme ⟨before, first, rest⟩) (h : Lexes (before ++ first) rest ps)
    (only : ∀ p : Piece, p.IsLexeme → ∀ skipped c others, first = skipped ++ c :: others →
      p.before = before ++ skipped → p.word ++ p.after = c :: (others ++ rest) →
      p = ⟨before, first, rest⟩) :
    Lexes before (first ++ rest) (⟨before, first, rest⟩ :: ps) := by
  refine ⟨List.pairwise_cons.2 ⟨fun q hq => ?_, h.ordered⟩, fun p => ?_⟩
  · obtain ⟨-, skipped, hb, -⟩ := (h.mem_iff q).1 hq
    simp only [Piece.EndsBefore, hb, List.length_append]
    omega
  · rw [List.mem_cons, h.mem_iff]
    constructor
    · rintro (rfl | ⟨hp, inside⟩)
      · exact ⟨lexeme, [], (List.append_nil _).symm, rfl⟩
      · exact ⟨hp, inside.behind⟩
    · rintro ⟨hp, inside⟩
      rcases inside.cases with inside | ⟨skipped, c, others, hf, hb, hw⟩
      · exact .inr ⟨hp, inside⟩
      · exact .inl (only p hp skipped c others hf hb hw)

theorem mark {c : Char} (hc : isPunctuation c = true) (h : Lexes (before ++ [c]) rest ps) :
    Lexes before (c :: rest) (⟨before, [c], rest⟩ :: ps) := by
  refine @cons before [c] rest ps (.mark hc) h fun p hp skipped d others hf hb hw => ?_
  rcases List.cons_eq_append_iff.1 hf with ⟨rfl, hd⟩ | ⟨more, -, hd⟩
  · obtain ⟨rfl, rfl⟩ := List.cons.inj hd
    obtain ⟨word, after⟩ := (hp.starts hw).2.1 hc
    exact Piece.ext (hb.trans (List.append_nil _)) word after
  · simp at hd

theorem run (ne_nil : first ≠ []) (inside : ∀ c ∈ first, isWordChar c = true)
    (left : ∀ c, before.getLast? = some c → isWordChar c = false) (right : Boundary rest)
    (h : Lexes (before ++ first) rest ps) :
    Lexes before (first ++ rest) (⟨before, first, rest⟩ :: ps) := by
  refine cons (.run ne_nil inside left right) h fun p hp skipped d others hf hb hw => ?_
  have hd : isWordChar d = true := inside d (by simp [hf])
  obtain ⟨inside', left', right'⟩ := (hp.starts hw).2.2 hd
  -- A run that starts further on would go on to the left.
  have start : skipped = [] := by
    by_contra some
    obtain ⟨front, c, rfl⟩ := List.eq_nil_or_concat skipped |>.resolve_left some
    have := left' c (by rw [hb]; simp [List.getLast?_append])
    rw [inside c (by simp [hf])] at this
    cases this
  subst start
  rw [List.nil_append] at hf
  have same : p.word ++ p.after = first ++ rest := by rw [hw, hf]; rfl
  have word : p.word = first := by
    rw [← takeWhile_append_boundary inside' right', same, takeWhile_append_boundary inside right]
  have after : p.after = rest := by
    rw [← dropWhile_append_boundary inside' right', same, dropWhile_append_boundary inside right]
  exact Piece.ext (hb.trans (List.append_nil _)) word after

end Lexes

theorem behind_start (before : List Char) :
    Position.start.behind before =
      ⟨1 + before.count '\n', 1 + (before.rtakeWhile (· ≠ '\n')).length⟩ := by
  induction before using List.reverseRecOn with
  | nil => rfl
  | append_singleton before c ih =>
    rw [Position.behind_append, ih, List.rtakeWhile_concat, List.count_append]
    by_cases hc : c = '\n'
    · subst hc
      simp [Position.behind_newline, Nat.add_assoc]
    · simp [Position.behind, hc, Nat.add_assoc]

/-- A scan finds the lexemes of a text behind `before`, unless a word runs from there into it. -/
theorem lexes_scan (text before : List Char)
    (left : ∀ c, before.getLast? = some c → isWordChar c = true → Boundary text) :
    ∃ ps, Lexes before text ps ∧ scan (Position.start.behind before) text = ps.map Piece.token := by
  induction text using lexeme_induction generalizing before with
  | nil => exact ⟨[], .nil before, scan_nil _⟩
  | blank c text hc ih =>
    obtain ⟨ps, lexes, found⟩ := ih (before ++ [c]) fun d hd hw => by
      obtain rfl : c = d := by simpa using hd
      rw [(isWordChar_eq_true_iff.1 hw).1] at hc
      cases hc
    refine ⟨ps, lexes.blank hc, ?_⟩
    rw [scan_blank hc, ← Position.behind_append, found]
  | punctuation c text hc ih =>
    obtain ⟨ps, lexes, found⟩ := ih (before ++ [c]) fun d hd hw => by
      obtain rfl : c = d := by simpa using hd
      rw [(isWordChar_eq_true_iff.1 hw).2] at hc
      cases hc
    refine ⟨_, lexes.mark hc, ?_⟩
    rw [scan_punctuation hc, ← Position.behind_append, found, behind_start]
    rfl
  | word w text ne_nil inside right ih =>
    obtain ⟨ps, lexes, found⟩ := ih (before ++ w) fun _ _ _ => right
    refine ⟨_, lexes.run ne_nil inside (fun c hc => ?_) right, ?_⟩
    · -- A word character in front would make the word a part of a longer one.
      by_contra hw
      have stop := left c hc (by simpa using hw)
      obtain ⟨d, ds, rfl⟩ := List.exists_cons_of_ne_nil ne_nil
      rw [List.cons_append, boundary_cons_iff, inside d List.mem_cons_self] at stop
      cases stop
    · rw [scan_word ne_nil inside right, ← Position.behind_append, found, behind_start]
      rfl

/-! ## Looking the words up -/

/-- The words are found in the line one behind the other, each at the next character that is not
blank, and nothing but blanks is left of the line. -/
inductive FoundIn : (line : List Char) → (words : List (List Char)) → Prop
  | nil {line : List Char} (blank : ∀ c ∈ line, Text.isBlank c = true) : FoundIn line []
  | cons {line word : List Char} {words : List (List Char)}
      (found : findWord? word line = some (line.takeWhile Text.isBlank).length)
      (others : FoundIn (line.drop ((line.takeWhile Text.isBlank).length + word.length)) words) :
      FoundIn line (word :: words)

/-- A word is found behind the blanks in front of it, and then the other words behind that. -/
theorem FoundIn.behind_blanks {blanks word rest : List Char} {words : List (List Char)}
    (hb : ∀ c ∈ blanks, Text.isBlank c = true) (hne : word ≠ [])
    (hw : ∀ c ∈ word, Text.isBlank c = false) (others : FoundIn rest words) :
    FoundIn (blanks ++ (word ++ rest)) (word :: words) := by
  have front : (blanks ++ (word ++ rest)).takeWhile Text.isBlank = blanks := by
    obtain ⟨c, cs, rfl⟩ := List.exists_cons_of_ne_nil hne
    rw [List.takeWhile_append_of_pos hb, List.cons_append, List.takeWhile_cons_of_neg,
      List.append_nil]
    simp [hw c List.mem_cons_self]
  have behind : (blanks ++ (word ++ rest)).drop (blanks.length + word.length) = rest := by
    rw [← List.append_assoc, ← List.length_append, List.drop_left]
  refine .cons ?_ ?_
  · rw [front, findWord?_behind_blanks hb hne hw]
  · rwa [front, behind]

/-- The words that a line is split into are found in it. -/
theorem foundIn_words (text blanks : List Char) (hb : ∀ c ∈ blanks, Text.isBlank c = true) :
    FoundIn (blanks ++ text) (Text.words (spaceOut text)) := by
  induction text using lexeme_induction generalizing blanks with
  | nil =>
    rw [List.append_nil]
    exact .nil hb
  | blank c text hc ih =>
    rw [words_spaceOut_blank hc, ← List.singleton_append, ← List.append_assoc]
    exact ih _ (List.forall_mem_append.2 ⟨hb, by simpa using hc⟩)
  | punctuation c text hc ih =>
    rw [words_spaceOut_punctuation hc]
    have mark : ∀ d ∈ [c], Text.isBlank d = false := by
      simpa using not_isBlank_of_isPunctuation hc
    exact .behind_blanks hb (List.cons_ne_nil _ _) mark (ih [] nofun)
  | word w text hne hw hr ih =>
    rw [words_spaceOut_word hne hw hr]
    exact .behind_blanks hb hne (fun c hc => (isWordChar_eq_true_iff.1 (hw c hc)).1) (ih [] nofun)

/-! ## What the words come to -/

/-- The words hold every character that is not blank. -/
theorem flatMap_text_scan (text : List Char) (place : Position) :
    (scan place text).flatMap (·.text.toList) = text.filter (!Text.isBlank ·) := by
  induction text using lexeme_induction generalizing place with
  | nil => rw [scan_nil, List.flatMap_nil, List.filter_nil]
  | blank c text hc ih => simp [scan_blank hc, hc, ih]
  | punctuation c text hc ih =>
    simp [scan_punctuation hc, not_isBlank_of_isPunctuation hc, ih]
  | word w text hne hw hr ih =>
    have all : w.filter (!Text.isBlank ·) = w := List.filter_eq_self.2 fun c hc => by
      simp [(isWordChar_eq_true_iff.1 (hw c hc)).1]
    rw [scan_word hne hw hr, List.flatMap_cons, ih, List.filter_append, all, String.toList_ofList]

/-- The tokens of a source are those that one scan finds outside comments: every punctuation mark
and every longest run of other characters, each once, in order and at its place, and of the kind
whose word it is in some case. To find the places, every word is searched for in its line, and it
is found at the next character that is not blank. -/
theorem tokenize_exact (source : String) :
    let text := (blankComments source).toList
    tokenize source = scan .start text ∧
      (∃ ps : List Piece, tokenize source = ps.map Piece.token ∧ ps.Pairwise Piece.EndsBefore ∧
        ∀ p, p ∈ ps ↔ p.IsLexeme ∧ p.text = text) ∧
      (∀ t ∈ tokenize source, ∀ kind ≠ TokenKind.identifier,
        t.kind = kind ↔ t.text.toUpper = kind.text) ∧
      (∀ line ∈ text.splitOn '\n', FoundIn line (Text.words (spaceOut line))) ∧
      (tokenize source).flatMap (·.text.toList) = text.filter (!Text.isBlank ·) := by
  intro text
  have scanned : tokenize source = scan .start text := by
    rw [tokenize_eq_scan]
    simp only [text, blankComments, String.toList_ofList]
  obtain ⟨ps, lexes, found⟩ := lexes_scan text [] (by simp)
  refine ⟨scanned, ⟨ps, scanned.trans found, lexes.ordered, fun p => ?_⟩, ?_, ?_, ?_⟩
  · rw [lexes.mem_iff, Piece.liesIn_nil_iff]
  · exact fun t _ kind reserved => TokenKind.ofText_eq_iff reserved
  · exact fun line _ => foundIn_words line [] (by simp)
  · rw [scanned, flatMap_text_scan]

end FuzzyInference
