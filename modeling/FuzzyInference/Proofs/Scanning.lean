import FuzzyInference.Language.Lexer
import Mathlib.Data.List.TakeWhile

/-!
# Scanning

* `lexeme_induction`: a text is nothing, or a blank, a punctuation mark or a word before a text;
* `scan_append`: two texts are scanned one after the other where no word runs from one into the
  other;
* `tokenize_eq_scan`: cutting a source into lines and words and looking the words up comes to the
  same as one scan.
-/

namespace FuzzyInference

theorem isBlank_newline : Text.isBlank '\n' = true := by decide

theorem isBlank_space : Text.isBlank ' ' = true := by decide

theorem isPunctuation_eq_true_iff {c : Char} :
    isPunctuation c = true ↔ c = ';' ∨ c = '(' ∨ c = ')' ∨ c = ',' := by
  simp [isPunctuation, or_assoc]

theorem not_isBlank_of_isPunctuation {c : Char} (h : isPunctuation c = true) :
    Text.isBlank c = false := by
  rcases isPunctuation_eq_true_iff.1 h with rfl | rfl | rfl | rfl <;> decide

theorem isWordChar_eq_true_iff {c : Char} :
    isWordChar c = true ↔ Text.isBlank c = false ∧ isPunctuation c = false := by
  simp [isWordChar]

/-- No word runs on into this text. -/
def Boundary (text : List Char) : Prop :=
  ∀ c, text.head? = some c → isWordChar c = false

theorem boundary_nil : Boundary [] := nofun

theorem boundary_cons_iff {c : Char} {rest : List Char} :
    Boundary (c :: rest) ↔ isWordChar c = false := by simp [Boundary]

theorem boundary_blank {c : Char} (h : Text.isBlank c = true) (rest : List Char) :
    Boundary (c :: rest) := by
  rw [boundary_cons_iff, isWordChar, h]
  rfl

theorem Boundary.append {text rest : List Char} (ht : Boundary text) (hr : Boundary rest) :
    Boundary (text ++ rest) := by
  cases text with
  | nil => exact hr
  | cons c cs => exact boundary_cons_iff.2 (boundary_cons_iff.1 ht)

theorem takeWhile_append_boundary {word rest : List Char} (hw : ∀ c ∈ word, isWordChar c = true)
    (hr : Boundary rest) : (word ++ rest).takeWhile isWordChar = word := by
  rw [List.takeWhile_append_of_pos hw]
  cases rest with
  | nil => simp
  | cons c cs => simp [boundary_cons_iff.1 hr]

theorem dropWhile_append_boundary {word rest : List Char} (hw : ∀ c ∈ word, isWordChar c = true)
    (hr : Boundary rest) : (word ++ rest).dropWhile isWordChar = rest := by
  rw [List.dropWhile_append_of_pos hw]
  cases rest with
  | nil => simp
  | cons c cs => simp [boundary_cons_iff.1 hr]

theorem boundary_dropWhile (text : List Char) : Boundary (text.dropWhile isWordChar) := by
  intro c hc
  have h := List.head?_dropWhile_not isWordChar text
  rw [hc] at h
  exact h

/-- Every text is made of blanks, punctuation marks and the longest runs of other characters. -/
theorem lexeme_induction {P : List Char → Prop} (nil : P [])
    (blank : ∀ c rest, Text.isBlank c = true → P rest → P (c :: rest))
    (punctuation : ∀ c rest, isPunctuation c = true → P rest → P (c :: rest))
    (word : ∀ w rest, w ≠ [] → (∀ c ∈ w, isWordChar c = true) → Boundary rest → P rest →
      P (w ++ rest))
    (text : List Char) : P text := by
  induction hl : text.length using Nat.strongRecOn generalizing text with
  | ind n ih =>
    cases text with
    | nil => exact nil
    | cons c rest =>
      have shorter : rest.length < n := by rw [← hl]; exact Nat.lt_succ_self _
      cases hb : Text.isBlank c with
      | true => exact blank c rest hb (ih _ shorter rest rfl)
      | false =>
        cases hp : isPunctuation c with
        | true => exact punctuation c rest hp (ih _ shorter rest rfl)
        | false =>
          have first : isWordChar c = true := isWordChar_eq_true_iff.2 ⟨hb, hp⟩
          have others : (rest.dropWhile isWordChar).length < n := by
            have := (List.dropWhile_suffix (l := rest) isWordChar).length_le
            omega
          have h := word (c :: rest.takeWhile isWordChar) (rest.dropWhile isWordChar) (by simp)
            (List.forall_mem_cons.2 ⟨first, fun d hd => List.mem_takeWhile_imp hd⟩)
            (boundary_dropWhile rest) (ih _ others _ rfl)
          simpa [List.takeWhile_append_dropWhile] using h

/-! ## Places -/

/-- The place behind a text that starts at `place`. -/
def Position.behind (place : Position) (text : List Char) : Position :=
  text.foldl
    (fun p c => if c = '\n' then ⟨p.line + 1, 1⟩ else { p with column := p.column + 1 }) place

namespace Position

@[simp] theorem behind_nil (place : Position) : place.behind [] = place := rfl

theorem behind_append (place : Position) (text rest : List Char) :
    place.behind (text ++ rest) = (place.behind text).behind rest := by
  simp [behind, List.foldl_append]

theorem behind_cons (place : Position) (c : Char) (rest : List Char) :
    place.behind (c :: rest) = (place.behind [c]).behind rest := behind_append place [c] rest

theorem behind_newline (place : Position) : place.behind ['\n'] = ⟨place.line + 1, 1⟩ := rfl

theorem behind_of_not_mem {text : List Char} (h : '\n' ∉ text) (place : Position) :
    place.behind text = { place with column := place.column + text.length } := by
  induction text generalizing place with
  | nil => rfl
  | cons c rest ih =>
    obtain ⟨hc, hr⟩ := List.ne_and_not_mem_of_not_mem_cons h
    have first : place.behind [c] = { place with column := place.column + 1 } := by
      simp [behind, Ne.symm hc]
    rw [behind_cons, first, ih hr]
    simp [Nat.add_assoc, Nat.add_comm 1]

end Position

/-! ## One scan -/

@[simp] theorem scan_nil (place : Position) : scan place [] = [] := by rw [scan]

theorem scan_blank {c : Char} (h : Text.isBlank c = true) (place : Position) (rest : List Char) :
    scan place (c :: rest) = scan (place.behind [c]) rest := by
  rw [scan]
  by_cases hc : c = '\n'
  · simp [hc, Position.behind]
  · simp [hc, h, Position.behind]

theorem scan_punctuation {c : Char} (h : isPunctuation c = true) (place : Position)
    (rest : List Char) :
    scan place (c :: rest) = ⟨c.toString, place⟩ :: scan (place.behind [c]) rest := by
  have hb := not_isBlank_of_isPunctuation h
  have hc : c ≠ '\n' := by
    rintro rfl
    cases h
  rw [scan]
  simp [hc, hb, h, Position.behind]

theorem newline_not_mem_word {word : List Char} (h : ∀ c ∈ word, isWordChar c = true) :
    '\n' ∉ word := by
  intro hm
  have := (isWordChar_eq_true_iff.1 (h _ hm)).1
  rw [isBlank_newline] at this
  cases this

theorem scan_word {word rest : List Char} (hne : word ≠ [])
    (hw : ∀ c ∈ word, isWordChar c = true) (hr : Boundary rest) (place : Position) :
    scan place (word ++ rest) =
      ⟨String.ofList word, place⟩ :: scan (place.behind word) rest := by
  rw [Position.behind_of_not_mem (newline_not_mem_word hw)]
  cases word with
  | nil => contradiction
  | cons c cs =>
    obtain ⟨first, others⟩ := List.forall_mem_cons.1 hw
    obtain ⟨hb, hp⟩ := isWordChar_eq_true_iff.1 first
    have hc : c ≠ '\n' := by
      rintro rfl
      rw [isBlank_newline] at hb
      cases hb
    rw [List.cons_append, scan]
    simp [hc, hb, hp, takeWhile_append_boundary others hr, dropWhile_append_boundary others hr]

/-- Scanning goes on behind a text as if nothing had been before it. -/
theorem scan_append {rest : List Char} (hr : Boundary rest) (text : List Char) (place : Position) :
    scan place (text ++ rest) = scan place text ++ scan (place.behind text) rest := by
  induction text using lexeme_induction generalizing place with
  | nil => simp
  | blank c text hb ih =>
    rw [List.cons_append, scan_blank hb, scan_blank hb, ih, ← Position.behind_cons]
  | punctuation c text hp ih =>
    rw [List.cons_append, scan_punctuation hp, scan_punctuation hp, ih, ← Position.behind_cons]
    rfl
  | word w text hne hw ht ih =>
    rw [List.append_assoc, scan_word hne hw (ht.append hr), scan_word hne hw ht, ih,
      ← Position.behind_append]
    rfl

/-! ## Words and their places -/

theorem words_nil : Text.words [] = [] := rfl

theorem words_blank {c : Char} (h : Text.isBlank c = true) (rest : List Char) :
    Text.words (c :: rest) = Text.words rest := by
  have hs := List.splitOnP_append_cons [] rest h
  simp only [List.nil_append] at hs
  simp [Text.words, hs]

/-- A run of characters that are not blank is a word, in front of a blank or the end. -/
theorem words_run {word rest : List Char} (hne : word ≠ [])
    (hw : ∀ c ∈ word, Text.isBlank c = false)
    (hr : ∀ c, rest.head? = some c → Text.isBlank c = true) :
    Text.words (word ++ rest) = word :: Text.words rest := by
  have nonempty : word.isEmpty = false := by simpa using hne
  cases rest with
  | nil => simp [Text.words, List.splitOnP_eq_singleton hw, nonempty]
  | cons c cs =>
    have hc := hr c rfl
    rw [words_blank hc]
    simp [Text.words, List.splitOnP_append_cons_of_forall_mem hw c hc, nonempty]

theorem spaceOut_append (text rest : List Char) :
    spaceOut (text ++ rest) = spaceOut text ++ spaceOut rest := by simp [spaceOut]

theorem spaceOut_cons_of_not_punctuation {c : Char} (h : isPunctuation c = false)
    (rest : List Char) : spaceOut (c :: rest) = c :: spaceOut rest := by simp [spaceOut, h]

theorem spaceOut_cons_of_punctuation {c : Char} (h : isPunctuation c = true)
    (rest : List Char) : spaceOut (c :: rest) = ' ' :: ([c] ++ ' ' :: spaceOut rest) := by
  simp [spaceOut, h]

theorem spaceOut_word {word : List Char} (h : ∀ c ∈ word, isWordChar c = true) :
    spaceOut word = word := by
  induction word with
  | nil => rfl
  | cons c cs ih =>
    obtain ⟨first, others⟩ := List.forall_mem_cons.1 h
    rw [spaceOut_cons_of_not_punctuation (isWordChar_eq_true_iff.1 first).2, ih others]

theorem head?_spaceOut_of_boundary {rest : List Char} (h : Boundary rest) {c : Char}
    (hc : (spaceOut rest).head? = some c) : Text.isBlank c = true := by
  cases rest with
  | nil => cases hc
  | cons d ds =>
    cases hp : isPunctuation d with
    | true =>
      rw [spaceOut_cons_of_punctuation hp] at hc
      obtain rfl := Option.some.inj hc
      decide
    | false =>
      rw [spaceOut_cons_of_not_punctuation hp] at hc
      obtain rfl := Option.some.inj hc
      have := boundary_cons_iff.1 h
      simpa [isWordChar, hp] using this

theorem words_spaceOut_blank {c : Char} (h : Text.isBlank c = true) (rest : List Char) :
    Text.words (spaceOut (c :: rest)) = Text.words (spaceOut rest) := by
  have hp : isPunctuation c = false := by
    by_contra hp
    rw [not_isBlank_of_isPunctuation (by simpa using hp)] at h
    cases h
  rw [spaceOut_cons_of_not_punctuation hp, words_blank h]

theorem words_spaceOut_punctuation {c : Char} (h : isPunctuation c = true) (rest : List Char) :
    Text.words (spaceOut (c :: rest)) = [c] :: Text.words (spaceOut rest) := by
  have hb := not_isBlank_of_isPunctuation h
  rw [spaceOut_cons_of_punctuation h, words_blank isBlank_space,
    words_run (by simp) (by simpa using hb) (by simp [isBlank_space]), words_blank isBlank_space]

theorem words_spaceOut_word {word rest : List Char} (hne : word ≠ [])
    (hw : ∀ c ∈ word, isWordChar c = true) (hr : Boundary rest) :
    Text.words (spaceOut (word ++ rest)) = word :: Text.words (spaceOut rest) := by
  rw [spaceOut_append, spaceOut_word hw]
  exact words_run hne (fun c hc => (isWordChar_eq_true_iff.1 (hw c hc)).1)
    fun c hc => head?_spaceOut_of_boundary hr hc

/-- A word is found behind the blanks in front of it. -/
theorem findWord?_behind_blanks {blanks word : List Char}
    (hb : ∀ c ∈ blanks, Text.isBlank c = true) (hne : word ≠ [])
    (hw : ∀ c ∈ word, Text.isBlank c = false) (rest : List Char) :
    findWord? word (blanks ++ (word ++ rest)) = some blanks.length := by
  obtain ⟨w, ws, rfl⟩ := List.exists_cons_of_ne_nil hne
  induction blanks with
  | nil =>
    have prefixed : (w :: ws).isPrefixOf ((w :: ws) ++ rest) = true :=
      List.isPrefixOf_iff_prefix.2 (List.prefix_append _ _)
    simp only [List.cons_append] at prefixed
    simp [findWord?, prefixed]
  | cons c cs ih =>
    obtain ⟨hc, hcs⟩ := List.forall_mem_cons.1 hb
    have other : w ≠ c := by
      rintro rfl
      rw [hw w (by simp)] at hc
      cases hc
    rw [List.cons_append, findWord?, ih hcs]
    simp [List.isPrefixOf, other]

/-- The first word of a line is placed behind the blanks in front of it. -/
theorem placeWords_cons {blanks word : List Char} (hb : ∀ c ∈ blanks, Text.isBlank c = true)
    (hne : word ≠ []) (hw : ∀ c ∈ word, Text.isBlank c = false) (hn : '\n' ∉ blanks)
    (place : Position) (rest : List Char) (words : List (List Char)) :
    placeWords place (blanks ++ (word ++ rest)) (word :: words) =
      ⟨String.ofList word, place.behind blanks⟩ ::
        placeWords ((place.behind blanks).behind word) rest words := by
  have hn' : '\n' ∉ word := by
    intro h
    have := hw _ h
    rw [isBlank_newline] at this
    cases this
  have dropped : (blanks ++ (word ++ rest)).drop (blanks.length + word.length) = rest := by
    rw [← List.append_assoc, ← List.length_append, List.drop_left]
  have length : ((blanks ++ (word ++ rest)).take (blanks.length + word.length)).length =
      blanks.length + word.length := by
    rw [List.length_take]
    simp only [List.length_append]
    omega
  rw [placeWords, findWord?_behind_blanks hb hne hw, Position.behind_of_not_mem hn,
    Position.behind_of_not_mem hn']
  simp only [Option.getD_some, dropped, length, Nat.add_assoc]

/-- The words of a line are placed where the scan finds them. -/
theorem placeWords_eq_scan {blanks text : List Char} (hb : ∀ c ∈ blanks, Text.isBlank c = true)
    (hn : '\n' ∉ blanks) (ht : '\n' ∉ text) (place : Position) :
    placeWords place (blanks ++ text) (Text.words (spaceOut text)) =
      scan (place.behind blanks) text := by
  induction text using lexeme_induction generalizing blanks place with
  | nil => simp [spaceOut, words_nil, placeWords]
  | blank c text hc ih =>
    obtain ⟨other, ht⟩ := List.ne_and_not_mem_of_not_mem_cons ht
    have hb' : ∀ d ∈ blanks ++ [c], Text.isBlank d = true :=
      List.forall_mem_append.2 ⟨hb, by simpa using hc⟩
    have h := ih hb' (by simp [hn, other]) ht place
    rw [words_spaceOut_blank hc, scan_blank hc, ← Position.behind_append, ← h, List.append_assoc]
    rfl
  | punctuation c text hp ih =>
    have hw : ∀ d ∈ [c], Text.isBlank d = false := by
      simpa using not_isBlank_of_isPunctuation hp
    have h := @ih [] nofun nofun (List.not_mem_of_not_mem_cons ht)
      ((place.behind blanks).behind [c])
    rw [words_spaceOut_punctuation hp, scan_punctuation hp]
    exact (placeWords_cons hb (by simp) hw hn place text _).trans (congrArg _ h)
  | word w text hne hw hr ih =>
    have hw' : ∀ d ∈ w, Text.isBlank d = false := fun d hd =>
      (isWordChar_eq_true_iff.1 (hw d hd)).1
    have h := @ih [] nofun nofun (fun h => ht (List.mem_append_right _ h))
      ((place.behind blanks).behind w)
    rw [words_spaceOut_word hne hw hr, scan_word hne hw hr]
    exact (placeWords_cons hb hne hw' hn place text _).trans (congrArg _ h)

theorem lineTokens_eq_scan {line : List Char} (h : '\n' ∉ line) (number : Nat) :
    lineTokens line number = scan ⟨number, 1⟩ line :=
  @placeWords_eq_scan [] _ nofun nofun h ⟨number, 1⟩

/-- Line by line, the tokens are those of one scan. -/
theorem flatMap_lineTokens (text : List Char) (number : Nat) :
    (((text.splitOn '\n').zipIdx number).flatMap fun (line, n) => lineTokens line n) =
      scan ⟨number, 1⟩ text := by
  induction hl : text.length using Nat.strongRecOn generalizing text number with
  | ind n ih =>
    by_cases h : '\n' ∈ text
    · obtain ⟨line, rest, rfl, hn⟩ := List.eq_append_cons_of_mem h
      have shorter : rest.length < n := by
        rw [← hl, List.length_append, List.length_cons]
        omega
      rw [List.splitOn_append_cons_self_of_not_mem hn, List.zipIdx_cons, List.flatMap_cons,
        ih _ shorter rest _ rfl, scan_append (boundary_blank isBlank_newline rest),
        scan_blank isBlank_newline, Position.behind_newline, Position.behind_of_not_mem hn]
      exact congrArg (· ++ _) (lineTokens_eq_scan hn number)
    · rw [List.splitOn_eq_singleton h]
      simp [lineTokens_eq_scan h]

/-- The tokens of a source are found in one scan of what is outside comments. -/
theorem tokenize_eq_scan (source : String) :
    tokenize source = scan .start (blankFrom .outside source.toList) := by
  simp only [tokenize, blankComments, String.toList_ofList]
  exact flatMap_lineTokens _ 1

end FuzzyInference
