import FuzzyInference.Defuzzification.Text
import FuzzyInference.Proofs.Numerals
import Mathlib.Data.List.Forall2
import Mathlib.Data.List.TakeWhile

/-!
# Which texts say a defuzzification

Exactly the texts of one form are read as a defuzzification, and the text that is written of one is
among them.

* `Text.Stripped`: a text without the blanks at its two ends, and `stripped_iff`;
* `Text.InAnyCase`: a word in whatever case of its letters;
* `Defuzzification.Names`, `Defuzzification.Counts`: the two parts of a text;
* `Defuzzification.Describes`: a whole text;
* `ofText_eq_ok_iff`, `ofText_eq_error_iff`: what is read, and `describes_text`: what is written.
-/

namespace FuzzyInference

/-! ## Blanks -/

namespace Text

/-- Nothing but blanks stands in `text` around `inner`, and `inner` neither starts nor ends with
one. -/
structure Stripped (text inner : List Char) : Prop where
  around : ∃ before after, text = before ++ inner ++ after ∧
    (∀ c ∈ before, isBlank c = true) ∧ ∀ c ∈ after, isBlank c = true
  first : ∀ c ∈ inner.head?, isBlank c = false
  last : ∀ c ∈ inner.getLast?, isBlank c = false

theorem dropWhile_blanks {before rest : List Char} (blank : ∀ c ∈ before, isBlank c = true)
    (first : ∀ c ∈ rest.head?, isBlank c = false) : (before ++ rest).dropWhile isBlank = rest := by
  rw [List.dropWhile_append_of_pos blank]
  cases rest with
  | nil => rfl
  | cons c rest => rw [List.dropWhile_cons_of_neg (by simp [first c rfl])]

theorem Stripped.trim_eq {text inner : List Char} (h : Stripped text inner) :
    trim text = inner := by
  obtain ⟨before, after, rfl, front, back⟩ := h.around
  cases hi : inner with
  | nil =>
    have blank : ∀ c ∈ before ++ after, isBlank c = true := List.forall_mem_append.2 ⟨front, back⟩
    rw [trim, List.append_nil, List.dropWhile_eq_nil_iff.2 blank]
    rfl
  | cons c cs =>
    rw [← hi, trim, List.append_assoc, dropWhile_blanks front, List.reverse_append,
      dropWhile_blanks]
    · exact List.reverse_reverse inner
    · exact fun c hc => back c (List.mem_reverse.1 hc)
    · rw [List.head?_reverse]
      exact h.last
    · rw [List.head?_append_of_ne_nil _ (by simp [hi])]
      exact h.first

theorem stripped_self {text : List Char} (noBlank : ∀ c ∈ text, isBlank c = false) :
    Stripped text text where
  around := ⟨[], [], by simp, nofun, nofun⟩
  first := fun c hc => noBlank c (List.mem_of_head? hc)
  last := fun c hc => noBlank c (List.mem_of_getLast? hc)

/-- A text is the blanks at its front and what is left behind them. -/
theorem exists_blanks (text : List Char) :
    (∃ before, text = before ++ text.dropWhile isBlank ∧ ∀ c ∈ before, isBlank c = true) ∧
      ∀ c ∈ (text.dropWhile isBlank).head?, isBlank c = false := by
  refine ⟨⟨text.takeWhile isBlank, ?_, fun c hc => List.mem_takeWhile_imp hc⟩, ?_⟩
  · exact (List.takeWhile_append_dropWhile (p := isBlank) (l := text)).symm
  · intro c hc
    have stops := List.head?_dropWhile_not isBlank text
    rw [Option.mem_def.1 hc] at stops
    exact stops

theorem stripped_trim (text : List Char) : Stripped text (trim text) := by
  obtain ⟨⟨before, front, blank⟩, first⟩ := exists_blanks text
  obtain ⟨⟨after, back, blank'⟩, last⟩ := exists_blanks (text.dropWhile isBlank).reverse
  have behind : text.dropWhile isBlank = trim text ++ after.reverse := by
    rw [← List.reverse_reverse (text.dropWhile isBlank), back, List.reverse_append, trim]
  refine ⟨⟨before, after.reverse, ?_, blank, fun c hc => blank' c (List.mem_reverse.1 hc)⟩, ?_, ?_⟩
  · rw [List.append_assoc, ← behind, ← front]
  · intro c hc
    apply first
    rw [behind, List.head?_append, Option.mem_def.1 hc]
    rfl
  · rwa [trim, List.getLast?_reverse]

theorem stripped_iff {text inner : List Char} : Stripped text inner ↔ trim text = inner := by
  constructor
  · exact Stripped.trim_eq
  · rintro rfl
    exact stripped_trim text

/-! ## The case of letters -/

/-- The word is `name` but for the case of its ASCII letters. The name itself is in lower case. -/
def InAnyCase (word name : List Char) : Prop :=
  List.Forall₂ (fun c d => c = d ∨ c = d.toUpper) word name

theorem toLower_eq_iff {c d : Char} (lower : d.toLower = d) (back : d.toUpper.toLower = d) :
    c.toLower = d ↔ c = d ∨ c = d.toUpper := by
  constructor
  · rintro rfl
    by_cases h : 'A'.val ≤ c.val ∧ c.val ≤ 'Z'.val
    · have noUp : ¬ ('a'.val ≤ c.val ∧ c.val ≤ 'z'.val) := by
        rw [UInt32.le_iff_toNat_le, UInt32.le_iff_toNat_le] at h ⊢
        simp only [UInt32.reduceToNat, Char.reduceVal] at h ⊢
        omega
      right
      rw [toUpper_toLower, toUpper_of_not_lower noUp]
    · exact .inl (toLower_of_not_upper h).symm
  · rintro (rfl | rfl)
    · exact lower
    · exact back

theorem inAnyCase_iff {word name : List Char}
    (lower : ∀ d ∈ name, d.toLower = d ∧ d.toUpper.toLower = d) :
    InAnyCase word name ↔ word.map Char.toLower = name := by
  induction name generalizing word with
  | nil => simp [InAnyCase]
  | cons d name ih =>
    rw [List.forall_mem_cons] at lower
    obtain ⟨⟨hd, back⟩, others⟩ := lower
    cases word with
    | nil => simp [InAnyCase]
    | cons c word =>
      rw [InAnyCase, List.forall₂_cons, ← InAnyCase, ih others, ← toLower_eq_iff hd back,
        List.map_cons, List.cons.injEq]

end Text

/-! ## Methods -/

namespace Method

/-- The names of the methods. The mean of maximum has two. -/
def names : List (String × Method) :=
  [("centroid", centroid), ("mean-max", meanOfMaximum), ("mean-of-maximum", meanOfMaximum)]

theorem ofName?_eq_some_iff {name : String} {m : Method} :
    ofName? name = some m ↔ (name, m) ∈ names := by
  unfold ofName? names
  by_cases first : name = "centroid"
  · subst first
    simp [eq_comm]
  · by_cases others : name = "mean-max" ∨ name = "mean-of-maximum"
    · rcases others with rfl | rfl <;> simp [eq_comm]
    · rw [not_or] at others
      simp [first, others]

theorem lower_of_mem_names {name : String} {m : Method} (h : (name, m) ∈ names) :
    ∀ d ∈ name.toList, d.toLower = d ∧ d.toUpper.toLower = d := by
  have all : ∀ entry ∈ names,
      entry.1.toList.all fun d => d.toLower = d && d.toUpper.toLower = d := by
    decide +kernel
  simpa using all _ h

end Method

namespace Defuzzification

open Text (Stripped InAnyCase)

/-- The text is a name of the method in whatever case, with blanks around it. -/
def Names (text : List Char) (m : Method) : Prop :=
  ∃ word name, Stripped text word ∧ (name, m) ∈ Method.names ∧ InAnyCase word name.toList

theorem names_iff {text : List Char} {m : Method} :
    Names text m ↔ Method.ofName? (String.ofList (Text.trim text)).toLower = some m := by
  have lower : (String.ofList (Text.trim text)).toLower.toList =
      (Text.trim text).map Char.toLower := by
    change ((String.ofList (Text.trim text)).map Char.toLower).toList = _
    rw [String.toList_map, String.toList_ofList]
  rw [Method.ofName?_eq_some_iff]
  constructor
  · rintro ⟨word, name, stripped, named, same⟩
    rw [Text.inAnyCase_iff (Method.lower_of_mem_names named), ← stripped.trim_eq, ← lower,
      String.toList_inj] at same
    rwa [same]
  · intro named
    refine ⟨_, _, Text.stripped_trim text, named, ?_⟩
    rw [Text.inAnyCase_iff (Method.lower_of_mem_names named), lower]

/-- The text is a run of decimal digits, perhaps behind a plus sign, with blanks around it. -/
def Counts (text : List Char) (count : Nat) : Prop :=
  ∃ sign digits, Stripped text (sign ++ digits) ∧ (sign = [] ∨ sign = ['+']) ∧ digits ≠ [] ∧
    (∀ c ∈ digits, c.isDigit = true) ∧ Nat.ofDigitChars 10 digits 0 = count

theorem ofDigits_eq (digits : List Char) :
    Numeral.ofDigits digits = Nat.ofDigitChars 10 digits 0 := by
  rw [Nat.ofDigitChars_eq_foldl, Numeral.ofDigits]

/-- A run of digits is read as a count if that fits into 64 bits. -/
theorem readDigits_eq_some_iff {digits : List Char} {steps : UInt64} :
    (if !digits.isEmpty && digits.all Char.isDigit && Numeral.ofDigits digits < UInt64.size then
        some (UInt64.ofNat (Numeral.ofDigits digits)) else none) = some steps ↔
      digits ≠ [] ∧ (∀ c ∈ digits, c.isDigit = true) ∧
        Nat.ofDigitChars 10 digits 0 = steps.toNat := by
  rw [← ofDigits_eq]
  split
  · next h =>
    simp only [Bool.and_eq_true, Bool.not_eq_true', List.isEmpty_eq_false_iff, List.all_eq_true,
      decide_eq_true_eq] at h
    obtain ⟨⟨nonempty, digit⟩, bound⟩ := h
    rw [Option.some.injEq, ← UInt64.toNat_inj, UInt64.toNat_ofNat_of_lt' bound]
    exact ⟨fun same => ⟨nonempty, digit, same⟩, fun h => h.2.2⟩
  · next h =>
    refine ⟨nofun, ?_⟩
    rintro ⟨nonempty, digit, same⟩
    have bound : Numeral.ofDigits digits < UInt64.size := same ▸ steps.toNat_lt_size
    simp only [Bool.and_eq_true, Bool.not_eq_true', List.isEmpty_eq_false_iff, List.all_eq_true,
      decide_eq_true_eq] at h
    exact absurd ⟨⟨nonempty, digit⟩, bound⟩ h

/-- A plus sign in front of a count is passed over. -/
theorem readSteps?_eq_some_iff {text : List Char} {steps : UInt64} :
    readSteps? text = some steps ↔ ∃ sign digits, text = sign ++ digits ∧
      (sign = [] ∨ sign = ['+']) ∧ digits ≠ [] ∧ (∀ c ∈ digits, c.isDigit = true) ∧
      Nat.ofDigitChars 10 digits 0 = steps.toNat := by
  by_cases plus : ∃ digits, text = '+' :: digits
  · obtain ⟨digits, rfl⟩ := plus
    rw [readSteps?, readDigits_eq_some_iff]
    constructor
    · intro h
      exact ⟨['+'], digits, rfl, .inr rfl, h⟩
    · rintro ⟨_, others, same, rfl | rfl, h⟩
      · rw [List.nil_append] at same
        exact absurd (h.2.1 '+' (same ▸ List.mem_cons_self)) (by decide)
      · obtain rfl : digits = others := by simpa using same
        exact h
  · have noSign : readSteps? text = some steps ↔ text ≠ [] ∧ (∀ c ∈ text, c.isDigit = true) ∧
        Nat.ofDigitChars 10 text 0 = steps.toNat := by
      rw [readSteps?, ← readDigits_eq_some_iff]
      exact fun digits same => plus ⟨digits, same⟩
    rw [noSign]
    constructor
    · intro h
      exact ⟨[], text, rfl, .inl rfl, h⟩
    · rintro ⟨_, others, rfl, rfl | rfl, h⟩
      · exact h
      · exact absurd ⟨others, rfl⟩ plus

theorem counts_iff {text : List Char} {steps : UInt64} :
    Counts text steps.toNat ↔ readSteps? (Text.trim text) = some steps := by
  rw [readSteps?_eq_some_iff]
  constructor
  · rintro ⟨sign, digits, stripped, others⟩
    exact ⟨sign, digits, stripped.trim_eq, others⟩
  · rintro ⟨sign, digits, same, others⟩
    exact ⟨sign, digits, Text.stripped_iff.2 same, others⟩

/-- The text is a method alone, which counts a hundred steps, or a method and the number of steps
behind the first colon. -/
inductive Describes : List Char → Defuzzification → Prop
  | alone {front : List Char} {m : Method} (noColon : ':' ∉ front) (method : Names front m) :
      Describes front ⟨m, 100⟩
  | counted {front back : List Char} {m : Method} {steps : UInt64} (noColon : ':' ∉ front)
      (method : Names front m) (count : Counts back steps.toNat) :
      Describes (front ++ ':' :: back) ⟨m, steps⟩

theorem parts_of_noColon {front : List Char} (noColon : ':' ∉ front) :
    front.takeWhile (· ≠ ':') = front ∧ front.dropWhile (· ≠ ':') = [] := by
  have each : ∀ c ∈ front, decide (c ≠ ':') = true := by
    intro c hc
    rw [decide_eq_true_eq]
    rintro rfl
    exact noColon hc
  exact ⟨List.takeWhile_eq_self_iff.2 each, List.dropWhile_eq_nil_iff.2 each⟩

theorem parts_append {front : List Char} (noColon : ':' ∉ front) (back : List Char) :
    (front ++ ':' :: back).takeWhile (· ≠ ':') = front ∧
      (front ++ ':' :: back).dropWhile (· ≠ ':') = ':' :: back := by
  obtain ⟨taken, dropped⟩ := parts_of_noColon noColon
  constructor
  · rw [List.takeWhile_append, taken, if_pos rfl, List.takeWhile_cons_of_neg (by simp),
      List.append_nil]
  · rw [List.dropWhile_append, dropped, List.isEmpty_nil, if_pos rfl,
      List.dropWhile_cons_of_neg (by simp)]

/-- A text describes a method by what stands in front of the first colon, and steps by the rest. -/
theorem describes_iff {text : List Char} {d : Defuzzification} :
    Describes text d ↔ Names (text.takeWhile (· ≠ ':')) d.method ∧
      readStepsPart? (text.dropWhile (· ≠ ':')) = some d.steps := by
  constructor
  · rintro (⟨noColon, method⟩ | ⟨noColon, method, count⟩)
    · obtain ⟨taken, dropped⟩ := parts_of_noColon noColon
      rw [taken, dropped]
      exact ⟨method, rfl⟩
    · obtain ⟨taken, dropped⟩ := parts_append noColon _
      rw [taken, dropped, readStepsPart?, ← counts_iff]
      exact ⟨method, count⟩
  · obtain ⟨m, steps⟩ := d
    by_cases colon : ':' ∈ text
    · obtain ⟨front, back, rfl, noColon⟩ := List.eq_append_cons_of_mem colon
      obtain ⟨taken, dropped⟩ := parts_append noColon back
      rw [taken, dropped, readStepsPart?, ← counts_iff]
      rintro ⟨method, count⟩
      exact .counted noColon method count
    · obtain ⟨taken, dropped⟩ := parts_of_noColon colon
      rw [taken, dropped]
      rintro ⟨method, count⟩
      obtain rfl : defaultSteps = steps := Option.some.inj count
      exact .alone colon method

theorem ofText_eq_ok_iff {s : String} {d : Defuzzification} :
    ofText s = .ok d ↔ Describes s.toList d := by
  rw [describes_iff, names_iff, ofText]
  split
  · next m steps hm hs =>
    rw [hm, hs, Except.ok.injEq, Option.some.injEq, Option.some.injEq]
    constructor
    · rintro rfl
      exact ⟨rfl, rfl⟩
    · rintro ⟨rfl, rfl⟩
      rfl
  · next other =>
    refine ⟨nofun, ?_⟩
    rintro ⟨hm, hs⟩
    exact (other _ _ hm hs).elim

theorem ofText_eq_error_iff {s : String} :
    ofText s = .error ⟨s⟩ ↔ ∀ d, ¬ Describes s.toList d := by
  constructor
  · intro refused d describes
    rw [← ofText_eq_ok_iff, refused] at describes
    cases describes
  · intro h
    cases hs : ofText s with
    | ok d => exact absurd (ofText_eq_ok_iff.1 hs) (h d)
    | error e =>
      rw [ofText] at hs
      split at hs
      · cases hs
      · rw [← Except.error.inj hs]

/-! ## What is written -/

theorem toList_text (d : Defuzzification) :
    d.text.toList = d.method.name.toList ++ ':' :: Nat.toDigits 10 d.steps.toNat := by
  simp only [text, String.toList_append, Nat.toString_eq_ofList_toDigits, String.toList_ofList,
    List.append_assoc]
  rfl

theorem names_name (m : Method) : Names m.name.toList m := by
  have noBlank : m.name.toList.all (!Text.isBlank ·) = true := by
    cases m <;> decide +kernel
  refine ⟨m.name.toList, m.name, Text.stripped_self (by simpa using noBlank), ?_, ?_⟩
  · cases m <;> decide +kernel
  · exact List.forall₂_same.2 fun c _ => .inl rfl

theorem counts_toDigits (n : Nat) : Counts (Nat.toDigits 10 n) n := by
  have digit : ∀ c ∈ Nat.toDigits 10 n, c.isDigit = true :=
    fun c hc => Nat.isDigit_of_mem_toDigits (by decide) (by decide) hc
  have noBlank : ∀ c ∈ Nat.toDigits 10 n, Text.isBlank c = false :=
    fun c hc => (isWordChar_eq_true_iff.1 (Numeral.IsChar.isWordChar (.inl (digit c hc)))).1
  exact ⟨[], Nat.toDigits 10 n, Text.stripped_self noBlank, .inl rfl, Nat.toDigits_ne_nil, digit,
    Nat.ofDigitChars_ten_toDigits⟩

theorem describes_text (d : Defuzzification) : Describes d.text.toList d := by
  rw [toList_text]
  apply Describes.counted _ (names_name d.method) (counts_toDigits d.steps.toNat)
  cases d.method <;> decide +kernel

end Defuzzification

end FuzzyInference
