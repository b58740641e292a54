import FuzzyInference.Proofs.Comments
import FuzzyInference.Proofs.Scanning

/-!
# Spelling

* `lexemes`: the words of a text;
* `Spells`: a text stands for certain words, whatever follows it within limits. Texts are put
  together with `Spells.append`;
* `IsWord`: the words that a source can have;
* `IsName`: the words that can be names. `isName_of_mem_tokenize`: the identifiers of a source
  are.
-/

namespace FuzzyInference

/-- The words of a text, without their places. -/
def lexemes (text : List Char) : List String :=
  (scan .start (blankFrom .outside text)).map (·.text)

theorem lexemes_nil : lexemes [] = [] := by
  rw [lexemes, blankFrom, scan_nil, List.map_nil]

theorem map_text_tokenize (source : String) :
    (tokenize source).map (·.text) = lexemes source.toList := by
  rw [tokenize_eq_scan, lexemes]

/-- What the words are does not depend on where the text starts. -/
theorem map_text_scan (place other : Position) (text : List Char) :
    (scan place text).map (·.text) = (scan other text).map (·.text) := by
  induction text using lexeme_induction generalizing place other with
  | nil => simp
  | blank c text hb ih =>
    rw [scan_blank hb, scan_blank hb]
    exact ih _ _
  | punctuation c text hp ih =>
    rw [scan_punctuation hp, scan_punctuation hp, List.map_cons, List.map_cons]
    exact congrArg _ (ih _ _)
  | word w text hne hw hr ih =>
    rw [scan_word hne hw hr, scan_word hne hw hr, List.map_cons, List.map_cons]
    exact congrArg _ (ih _ _)

theorem isWordChar_mark {c : Char} (h : isWordChar c = false) : c ≠ '/' ∧ c ≠ '*' := by
  constructor <;> (rintro rfl; revert h; decide)

theorem Boundary.noMark {rest : List Char} (h : Boundary rest) : NoMark rest := by
  cases rest with
  | nil => exact noMark_nil
  | cons c cs =>
    obtain ⟨slash, star⟩ := isWordChar_mark (boundary_cons_iff.1 h)
    exact noMark_cons slash star cs

theorem Boundary.blankFrom {rest : List Char} (h : Boundary rest) :
    Boundary (blankFrom .outside rest) := by
  cases rest with
  | nil => exact boundary_nil
  | cons c cs =>
    have other := boundary_cons_iff.1 h
    rw [(blankFrom_outside (.inl (isWordChar_mark other).1)).1]
    exact boundary_cons_iff.2 other

theorem lexemes_append {text rest : List Char} (free : CommentFree text) (h : Boundary rest) :
    lexemes (text ++ rest) = lexemes text ++ lexemes rest := by
  obtain ⟨hb, hs⟩ := free.blankFrom
  simp only [lexemes]
  rw [blankFrom_append h.noMark, hs, scan_append h.blankFrom, List.map_append]
  exact congrArg _ (map_text_scan _ _ _)

/-! ## Texts put together -/

/-- The text stands for these words, whatever allowed text follows it. -/
def Spells (allowed : List Char → Prop) (text : String) (ws : List String) : Prop :=
  ∀ rest, allowed rest → lexemes (text.toList ++ rest) = ws ++ lexemes rest

/-- No limit to what follows. -/
def Anything (_ : List Char) : Prop := True

theorem Spells.append {D E : List Char → Prop} {text part : String} {ws us : List String}
    (first : Spells D text ws) (second : Spells E part us)
    (allowed : ∀ rest, E rest → D (part.toList ++ rest)) : Spells E (text ++ part) (ws ++ us) := by
  intro rest h
  rw [String.toList_append, List.append_assoc, first _ (allowed rest h), second rest h,
    List.append_assoc]

theorem Spells.then {E : List Char → Prop} {text part : String} {ws us : List String}
    (first : Spells Anything text ws) (second : Spells E part us) :
    Spells E (text ++ part) (ws ++ us) :=
  first.append second fun _ _ => trivial

/-- Nothing need follow the text. -/
theorem Spells.lexemes_eq {text : String} {ws : List String} (h : Spells Anything text ws) :
    lexemes text.toList = ws := by
  have alone := h [] trivial
  rwa [List.append_nil, lexemes_nil, List.append_nil] at alone

/-- No word runs on into the text. -/
def Separates (text : String) : Prop :=
  text.toList.head?.map isWordChar = some false

instance (text : String) : Decidable (Separates text) := inferInstanceAs (Decidable (_ = _))

theorem Separates.boundary {text : String} (h : Separates text) (rest : List Char) :
    Boundary (text.toList ++ rest) := by
  unfold Separates at h
  cases ht : text.toList with
  | nil => rw [ht] at h; cases h
  | cons c cs =>
    rw [ht] at h
    exact boundary_cons_iff.2 (Option.some.inj h)

theorem Spells.before {E : List Char → Prop} {text part : String} {ws us : List String}
    (first : Spells Boundary text ws) (second : Spells E part us) (h : Separates part) :
    Spells E (text ++ part) (ws ++ us) :=
  first.append second fun rest _ => h.boundary rest

theorem spells_of_commentFree {text : String} (free : CommentFree text.toList) :
    Spells Boundary text (lexemes text.toList) :=
  fun _ h => lexemes_append free h

theorem lexemes_cons {c : Char} (h : isWordChar c = false) (rest : List Char) :
    lexemes (c :: rest) = lexemes [c] ++ lexemes rest := by
  have plain := (isWordChar_mark h).1
  simp only [lexemes]
  rw [(blankFrom_outside (.inl plain)).1, (blankFrom_outside (.inl plain)).1, blankFrom]
  cases hb : Text.isBlank c with
  | true =>
    rw [scan_blank hb, scan_blank hb, scan_nil]
    exact map_text_scan _ _ _
  | false =>
    have hp : isPunctuation c = true := by simpa [isWordChar, hb] using h
    rw [scan_punctuation hp, scan_punctuation hp, scan_nil, List.map_cons]
    exact congrArg _ (map_text_scan _ _ _)

/-- A text that ends in a blank or a punctuation mark may be followed by anything. -/
theorem spells_literal (text : String) (ws : List String)
    (h : CommentFree text.toList ∧ text.toList.getLast?.map isWordChar = some false ∧
      lexemes text.toList = ws) : Spells Anything text ws := by
  obtain ⟨free, last, rfl⟩ := h
  intro rest _
  obtain ⟨c, hc, hw⟩ := Option.map_eq_some_iff.1 last
  obtain ⟨front, hf⟩ := List.getLast?_eq_some_iff.1 hc
  rw [hf] at free ⊢
  have part := free.part (List.prefix_append front [c]).isInfix
  have stop (rest : List Char) : Boundary (c :: rest) := boundary_cons_iff.2 hw
  rw [List.append_assoc, List.singleton_append, lexemes_append part (stop rest),
    lexemes_append part (stop []), lexemes_cons hw, List.append_assoc]

/-! ## Words and names -/

/-- A word that a source can have: a punctuation mark, or a run of other characters in which no
comment is opened. -/
structure IsWord (word : String) : Prop where
  shape : (∃ c, isPunctuation c = true ∧ word = c.toString) ∨
    (word.toList ≠ [] ∧ ∀ c ∈ word.toList, isWordChar c = true)
  free : CommentFree word.toList

theorem IsWord.spells {word : String} (h : IsWord word) : Spells Boundary word [word] := by
  have single : lexemes word.toList = [word] := by
    rw [lexemes, h.free.blankFrom.1]
    rcases h.shape with ⟨c, hc, rfl⟩ | ⟨hne, hw⟩
    · have hs := scan_punctuation hc .start []
      rw [scan_nil] at hs
      rw [Char.toString_eq_singleton, String.toList_singleton, hs]
      rfl
    · have hs := scan_word hne hw boundary_nil .start
      rw [List.append_nil, scan_nil] at hs
      rw [hs]
      simp
  have hs := spells_of_commentFree h.free
  rwa [single] at hs

/-- A word that can be the name of a variable or a term. -/
structure IsName (word : String) : Prop where
  ne_nil : word.toList ≠ []
  chars : ∀ c ∈ word.toList, isWordChar c = true
  free : CommentFree word.toList
  kind : TokenKind.ofText word = .identifier

instance (word : String) : Decidable (IsName word) :=
  decidable_of_iff (word.toList ≠ [] ∧ word.toList.all isWordChar = true ∧
      CommentFree word.toList ∧ TokenKind.ofText word = .identifier)
    ⟨fun ⟨ne, chars, free, kind⟩ => ⟨ne, List.all_eq_true.1 chars, free, kind⟩,
      fun h => ⟨h.ne_nil, List.all_eq_true.2 h.chars, h.free, h.kind⟩⟩

theorem IsName.isWord {word : String} (h : IsName word) : IsWord word :=
  ⟨.inr ⟨h.ne_nil, h.chars⟩, h.free⟩

theorem IsName.spells {word : String} (h : IsName word) : Spells Boundary word [word] :=
  h.isWord.spells

/-- A token is a punctuation mark or a run of other characters. -/
theorem mem_scan {t : Token} {place : Position} {text : List Char} (h : t ∈ scan place text) :
    t.text.toList <:+: text ∧ ((∃ c, isPunctuation c = true ∧ t.text = c.toString) ∨
      (t.text.toList ≠ [] ∧ ∀ c ∈ t.text.toList, isWordChar c = true)) := by
  induction text using lexeme_induction generalizing place with
  | nil => simp at h
  | blank c text hb ih =>
    rw [scan_blank hb] at h
    exact (ih h).imp_left fun hi => List.infix_cons hi
  | punctuation c text hp ih =>
    rw [scan_punctuation hp] at h
    rcases List.mem_cons.1 h with rfl | h
    · exact ⟨by simpa using (List.prefix_append [c] text).isInfix, .inl ⟨c, hp, rfl⟩⟩
    · exact (ih h).imp_left fun hi => List.infix_cons hi
  | word w text hne hw hr ih =>
    rw [scan_word hne hw hr] at h
    rcases List.mem_cons.1 h with rfl | h
    · exact ⟨by simpa using (List.prefix_append w text).isInfix, .inr (by simpa using ⟨hne, hw⟩)⟩
    · exact (ih h).imp_left fun hi => hi.trans (List.suffix_append w text).isInfix

theorem ofText_punctuation {c : Char} (h : isPunctuation c = true) :
    TokenKind.ofText c.toString ≠ .identifier := by
  rcases isPunctuation_eq_true_iff.1 h with rfl | rfl | rfl | rfl <;> decide +kernel

theorem isWord_of_mem_tokenize {source : String} {t : Token} (h : t ∈ tokenize source) :
    IsWord t.text := by
  rw [tokenize_eq_scan] at h
  obtain ⟨part, shape⟩ := mem_scan h
  exact ⟨shape, (commentFree_blankFrom _ _).part part⟩

/-- The identifiers of a source are names. -/
theorem isName_of_mem_tokenize {source : String} {t : Token} (h : t ∈ tokenize source)
    (hk : t.kind = .identifier) : IsName t.text := by
  have word := isWord_of_mem_tokenize h
  rcases word.shape with ⟨c, hp, hc⟩ | ⟨hne, hw⟩
  · have hk' : TokenKind.ofText t.text = .identifier := hk
    rw [hc] at hk'
    exact absurd hk' (ofText_punctuation hp)
  · exact ⟨hne, hw, word.free, hk⟩

end FuzzyInference
