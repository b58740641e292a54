import FuzzyInference.Number.Numeral
import FuzzyInference.Proofs.Spelling
import FuzzyInference.Proofs.Vocabulary
import Mathlib.Tactic.SplitIfs

/-!
# Written numbers are words

* `Numeral.isChar_of_read?`: the characters of a number;
* `Numeral.begins_of_read?`: a number that begins with a letter is one of three words;
* `isName_of_read?`: every text that reads as a number is one word, and none that is reserved.
-/

namespace FuzzyInference

theorem toLower_of_not_upper {c : Char} (h : ¬ ('A'.val ≤ c.val ∧ c.val ≤ 'Z'.val)) :
    c.toLower = c := dif_neg h

theorem val_toLower {c : Char} (h : 'A'.val ≤ c.val ∧ c.val ≤ 'Z'.val) :
    c.toLower.val = c.val + 32 := congrArg Char.val (dif_pos h)

theorem toUpper_of_not_lower {c : Char} (h : ¬ ('a'.val ≤ c.val ∧ c.val ≤ 'z'.val)) :
    c.toUpper = c := dif_neg h

theorem val_toUpper {c : Char} (h : 'a'.val ≤ c.val ∧ c.val ≤ 'z'.val) :
    c.toUpper.val = c.val + ('A'.val - 'a'.val) := by
  unfold Char.toUpper
  rw [dif_pos h]

theorem toUpper_toLower (c : Char) : c.toLower.toUpper = c.toUpper := by
  by_cases h : 'A'.val ≤ c.val ∧ c.val ≤ 'Z'.val
  · have range : 65 ≤ c.val.toNat ∧ c.val.toNat ≤ 90 := h
    have lower := val_toLower h
    have sum : (c.val + 32).toNat = c.val.toNat + 32 := by
      rw [UInt32.toNat_add]
      simp only [UInt32.reduceToNat]
      omega
    have up : 'a'.val ≤ c.toLower.val ∧ c.toLower.val ≤ 'z'.val := by
      rw [lower, UInt32.le_iff_toNat_le, UInt32.le_iff_toNat_le, sum]
      simp only [UInt32.reduceToNat, Char.reduceVal]
      omega
    have noUp : ¬ ('a'.val ≤ c.val ∧ c.val ≤ 'z'.val) := by
      rw [UInt32.le_iff_toNat_le, UInt32.le_iff_toNat_le]
      simp only [UInt32.reduceToNat, Char.reduceVal]
      omega
    have back : ('A'.val - 'a'.val).toNat = 2 ^ 32 - 32 := by decide
    rw [toUpper_of_not_lower noUp]
    apply Char.ext
    apply UInt32.toNat_inj.1
    rw [val_toUpper up, UInt32.toNat_add, lower, sum, back]
    omega
  · rw [toLower_of_not_upper h]

theorem isAlpha_eq (c : Char) : c.isAlpha = (c.isUpper || c.isLower) := rfl

theorem isUpper_eq_true_iff {c : Char} :
    c.isUpper = true ↔ 'A'.val ≤ c.val ∧ c.val ≤ 'Z'.val := by
  have same : c.isUpper = decide ('A'.val ≤ c.val ∧ c.val ≤ 'Z'.val) := rfl
  rw [same, decide_eq_true_eq]

theorem isLower_eq_true_iff {c : Char} :
    c.isLower = true ↔ 'a'.val ≤ c.val ∧ c.val ≤ 'z'.val := by
  have same : c.isLower = (decide ('a'.val ≤ c.val) && decide (c.val ≤ 'z'.val)) := rfl
  rw [same, Bool.and_eq_true, decide_eq_true_eq, decide_eq_true_eq]

theorem isAlpha_of_isLower_toLower {c : Char} (h : c.toLower.isLower = true) :
    c.isAlpha = true := by
  rw [isAlpha_eq]
  by_cases hu : c.isUpper = true
  · rw [hu, Bool.true_or]
  · rw [toLower_of_not_upper (mt isUpper_eq_true_iff.2 hu)] at h
    rw [h, Bool.or_true]

theorem isUpper_toUpper {c : Char} (h : c.isAlpha = true) : c.toUpper.isUpper = true := by
  by_cases lower : 'a'.val ≤ c.val ∧ c.val ≤ 'z'.val
  · have range : 97 ≤ c.val.toNat ∧ c.val.toNat ≤ 122 := lower
    have shift : ('A'.val - 'a'.val).toNat = 2 ^ 32 - 32 := by decide
    rw [isUpper_eq_true_iff, val_toUpper lower, UInt32.le_iff_toNat_le, UInt32.le_iff_toNat_le,
      UInt32.toNat_add, shift]
    simp only [UInt32.reduceToNat, Char.reduceVal]
    omega
  · rw [toUpper_of_not_lower lower]
    rw [isAlpha_eq, Bool.or_eq_true, isLower_eq_true_iff] at h
    exact h.resolve_right lower

theorem isAlpha_of_isUpper_toUpper {c : Char} (h : c.toUpper.isUpper = true) :
    c.isAlpha = true := by
  rw [isAlpha_eq]
  by_cases lower : c.isLower = true
  · rw [lower, Bool.or_true]
  · rw [toUpper_of_not_lower (mt isLower_eq_true_iff.2 lower)] at h
    rw [h, Bool.true_or]

/-- Only letters have another case. -/
theorem toUpper_eq_of_not_isUpper {c : Char} (h : c.toUpper.isUpper ≠ true) : c.toUpper = c := by
  apply toUpper_of_not_lower
  intro lower
  apply h
  apply isUpper_toUpper
  rw [isAlpha_eq, isLower_eq_true_iff.2 lower, Bool.or_true]

namespace Numeral

/-- The characters that written numbers are made of. -/
def IsChar (c : Char) : Prop :=
  c.isDigit = true ∨ c.isAlpha = true ∨ c = '.' ∨ c = '+' ∨ c = '-'

theorem splitSign_cases (text : List Char) :
    (∃ sign, (sign = '+' ∨ sign = '-') ∧ text = sign :: (splitSign text).2) ∨
      text = (splitSign text).2 := by
  unfold splitSign
  split
  · exact .inl ⟨'-', .inr rfl, rfl⟩
  · exact .inl ⟨'+', .inl rfl, rfl⟩
  · exact .inr rfl

theorem isChar_of_splitSign {text : List Char} (h : ∀ c ∈ (splitSign text).2, IsChar c) :
    ∀ c ∈ text, IsChar c := by
  rcases splitSign_cases text with ⟨sign, hs, ht⟩ | ht
  · rw [ht]
    exact List.forall_mem_cons.2 ⟨.inr (.inr (.inr hs)), h⟩
  · rw [ht]
    exact h

theorem isChar_of_readExponent? {text : List Char} {e : Int} (h : readExponent? text = some e) :
    ∀ c ∈ text, IsChar c := by
  cases text with
  | nil => simp
  | cons mark rest =>
    simp only [readExponent?] at h
    split at h
    · next accepted =>
      simp only [Bool.and_eq_true, decide_eq_true_eq, List.all_eq_true] at accepted
      obtain ⟨⟨hm, -⟩, digits⟩ := accepted
      have letter : mark.isAlpha = true := isAlpha_of_isLower_toLower (by rw [hm]; decide)
      refine List.forall_mem_cons.2 ⟨.inr (.inl letter), ?_⟩
      exact isChar_of_splitSign fun c hc => .inl (digits c hc)
    · cases h

/-- A text begins with the digits around its point. -/
theorem splitFraction_spec (text : List Char) :
    (∀ c ∈ (splitFraction text).1, c.isDigit = true) ∧
      (∀ c ∈ (splitFraction text).2.1, c.isDigit = true) ∧
      ((text = (splitFraction text).1 ++ (splitFraction text).2.2 ∧ (splitFraction text).2.1 = []) ∨
        text = (splitFraction text).1 ++
          '.' :: ((splitFraction text).2.1 ++ (splitFraction text).2.2)) := by
  have whole := List.takeWhile_append_dropWhile (p := Char.isDigit) (l := text)
  have digits (l : List Char) : ∀ c ∈ l.takeWhile Char.isDigit, c.isDigit = true :=
    fun c hc => List.mem_takeWhile_imp hc
  unfold splitFraction
  split
  · next rest hr =>
    refine ⟨digits _, digits _, .inr ?_⟩
    rw [List.takeWhile_append_dropWhile, ← hr, whole]
  · exact ⟨digits _, by simp, .inl ⟨whole.symm, rfl⟩⟩

/-- A decimal begins with a digit or the point, and has only characters of numbers. -/
theorem readDecimal?_spec {negative : Bool} {text : List Char} {n : Numeral}
    (h : readDecimal? negative text = some n) :
    (∀ c ∈ text, IsChar c) ∧ ∃ c rest, text = c :: rest ∧ (c.isDigit = true ∨ c = '.') := by
  obtain ⟨whole, fraction, ht⟩ := splitFraction_spec text
  simp only [readDecimal?] at h
  split at h
  · cases h
  · next signed =>
    obtain ⟨e, he, -⟩ := Option.map_eq_some_iff.1 h
    have others := isChar_of_readExponent? he
    generalize (splitFraction text).1 = w at *
    generalize (splitFraction text).2.1 = f at *
    generalize (splitFraction text).2.2 = r at *
    have hw : ∀ c ∈ w, IsChar c := fun c hc => .inl (whole c hc)
    have hf : ∀ c ∈ f, IsChar c := fun c hc => .inl (fraction c hc)
    rcases ht with ⟨rfl, rfl⟩ | rfl
    · refine ⟨List.forall_mem_append.2 ⟨hw, others⟩, ?_⟩
      cases w with
      | nil => simp at signed
      | cons c cs => exact ⟨c, cs ++ r, rfl, .inl (whole c List.mem_cons_self)⟩
    · have point : IsChar '.' := .inr (.inr (.inl rfl))
      refine ⟨List.forall_mem_append.2 ⟨hw, List.forall_mem_cons.2
        ⟨point, List.forall_mem_append.2 ⟨hf, others⟩⟩⟩, ?_⟩
      cases w with
      | nil => exact ⟨'.', f ++ r, rfl, .inr rfl⟩
      | cons c cs => exact ⟨c, _, rfl, .inl (whole c List.mem_cons_self)⟩

/-- The words for infinity and for an undefined result. -/
def specialWords : List String := ["inf", "infinity", "nan"]

/-- A number is one of three words in any case, or a decimal, with a sign in front or without. -/
theorem read?_cases {text : String} {n : Numeral} (h : read? text = some n) :
    String.ofList ((splitSign text.toList).2.map Char.toLower) ∈ specialWords ∨
      ∃ negative, readDecimal? negative (splitSign text.toList).2 = some n := by
  simp only [read?] at h
  split at h
  · next word =>
    rw [Bool.or_eq_true, decide_eq_true_eq, decide_eq_true_eq] at word
    rcases word with word | word <;> simp [specialWords, word]
  · split at h
    · next word => simp [specialWords, word]
    · exact .inr ⟨_, h⟩

theorem isAlpha_of_specialWord {text : List Char}
    (h : String.ofList (text.map Char.toLower) ∈ specialWords) : ∀ c ∈ text, c.isAlpha = true := by
  have lower : ∀ w ∈ specialWords, w.toList.all (·.isLower) = true := by decide
  intro c hc
  apply isAlpha_of_isLower_toLower
  apply List.all_eq_true.1 (lower _ h)
  rw [String.toList_ofList]
  exact List.mem_map_of_mem hc

theorem isChar_of_read? {text : String} {n : Numeral} (h : read? text = some n) :
    ∀ c ∈ text.toList, IsChar c := by
  apply isChar_of_splitSign
  rcases read?_cases h with word | ⟨negative, hd⟩
  · exact fun c hc => .inr (.inl (isAlpha_of_specialWord word c hc))
  · exact (readDecimal?_spec hd).1

/-- A number begins with a sign, a digit or the point, or else is one of three words. -/
theorem begins_of_read? {text : String} {n : Numeral} (h : read? text = some n) :
    (∃ c rest, text.toList = c :: rest ∧ (c.isDigit = true ∨ c = '.' ∨ c = '+' ∨ c = '-')) ∨
      String.ofList (text.toList.map Char.toLower) ∈ specialWords := by
  rcases splitSign_cases text.toList with ⟨sign, hs, ht⟩ | ht
  · exact .inl ⟨sign, _, ht, .inr (.inr hs)⟩
  · have forms := read?_cases h
    rw [← ht] at forms
    rcases forms with word | ⟨negative, hd⟩
    · exact .inr word
    · obtain ⟨-, c, rest, hc, first⟩ := readDecimal?_spec hd
      exact .inl ⟨c, rest, hc, first.imp_right .inl⟩

end Numeral

theorem toUpper_of_begins {c : Char} (h : c.isDigit = true ∨ c = '.' ∨ c = '+' ∨ c = '-') :
    c.toUpper = c := by
  rcases h with digit | rfl | rfl | rfl
  · have range : 48 ≤ c.val.toNat ∧ c.val.toNat ≤ 57 := by
      simpa [Char.isDigit, UInt32.le_iff_toNat_le] using digit
    have noLower : ¬ ('a'.val ≤ c.val ∧ c.val ≤ 'z'.val) := by
      rw [UInt32.le_iff_toNat_le, UInt32.le_iff_toNat_le]
      simp only [UInt32.reduceToNat, Char.reduceVal]
      omega
    exact toUpper_of_not_lower noLower
  all_goals decide

/-- The word of a kind does not begin like a number. -/
theorem TokenKind.head?_text {kind : TokenKind} {c : Char} (h : kind.text.toList.head? = some c) :
    ¬ (c.isDigit = true ∨ c = '.' ∨ c = '+' ∨ c = '-') := by
  cases kind <;> (obtain rfl := Option.some.inj h; decide)

theorem TokenKind.text_ne_specialWord (kind : TokenKind) :
    ∀ w ∈ Numeral.specialWords, kind.text.toList ≠ w.toList.map Char.toUpper := by
  cases kind <;> decide

/-- A number is no reserved word. -/
theorem ofText_of_read? {text : String} {n : Numeral} (h : Numeral.read? text = some n) :
    TokenKind.ofText text = .identifier := by
  by_contra reserved
  have upper : text.toList.map Char.toUpper = (TokenKind.ofText text).text.toList := by
    rw [← (TokenKind.ofText_eq_iff reserved).1 rfl, String.toUpper, String.toList_map]
  rcases Numeral.begins_of_read? h with ⟨c, rest, hc, first⟩ | word
  · rw [hc, List.map_cons, toUpper_of_begins first] at upper
    exact TokenKind.head?_text (by rw [← upper, List.head?_cons]) first
  · apply TokenKind.text_ne_specialWord _ _ word
    rw [← upper, String.toList_ofList, List.map_map]
    exact List.map_congr_left fun c _ => (toUpper_toLower c).symm

theorem Numeral.IsChar.isWordChar {c : Char} (h : Numeral.IsChar c) : isWordChar c = true := by
  have range : (48 ≤ c.toNat ∧ c.toNat ≤ 57) ∨ (65 ≤ c.toNat ∧ c.toNat ≤ 90) ∨
      (97 ≤ c.toNat ∧ c.toNat ≤ 122) ∨ c.toNat = 46 ∨ c.toNat = 43 ∨ c.toNat = 45 := by
    rcases h with digit | letter | rfl | rfl | rfl
    · simp only [Char.isDigit, ge_iff_le, Bool.and_eq_true, decide_eq_true_eq,
        UInt32.le_iff_toNat_le] at digit
      exact .inl digit
    · rw [isAlpha_eq, Bool.or_eq_true, isUpper_eq_true_iff, isLower_eq_true_iff] at letter
      rcases letter with upper | lower
      · exact .inr (.inl upper)
      · exact .inr (.inr (.inl lower))
    all_goals decide
  rw [isWordChar_eq_true_iff]
  constructor
  · simp only [Text.isBlank, Text.blankRanges, List.any_cons, List.any_nil]
    simp
    omega
  · by_contra hp
    rcases isPunctuation_eq_true_iff.1 (by simpa using hp) with rfl | rfl | rfl | rfl <;>
      revert range <;> decide

theorem Numeral.IsChar.ne_slash {c : Char} (h : Numeral.IsChar c) : c ≠ '/' := by
  rintro rfl
  revert h
  simp [Numeral.IsChar]

/-- Every text that reads as a number can stand where a name can. -/
theorem isName_of_read? {text : String} {n : Numeral} (h : Numeral.read? text = some n) :
    IsName text := by
  have chars := Numeral.isChar_of_read? h
  have noSlash : '/' ∉ text.toList := fun hs => (chars _ hs).ne_slash rfl
  refine ⟨?_, fun c hc => (chars c hc).isWordChar, ⟨fun hl => ?_, fun hb => ?_⟩, ofText_of_read? h⟩
  · rcases Numeral.begins_of_read? h with ⟨c, rest, hc, -⟩ | word
    · simp [hc]
    · intro hn
      rw [hn] at word
      revert word
      decide
  · exact noSlash (hl.subset (by simp))
  · exact noSlash (hb.subset (by simp))

end FuzzyInference
