import FuzzyInference.Json.Records
import FuzzyInference.Proofs.FiniteCounts
import FuzzyInference.Proofs.WrittenMethods

/-!
# JSON texts are read back

JSON does what is asked of a format to serialize in: a document is read back from its text, and
records and variants from their documents.

* `Json.Writes`, `Json.WritesMembers`: a text from which a value, or the members of an object, are
  read whatever stands behind it;
* `Json.writes_string`, `Json.writes_ofCount`, `Json.WritesMembers.cons` and `Json.writes_object`:
  from strings and counts up to objects;
* `Json.read?_text`: whole texts;
* `Json.readTagged?_tagged`: variants, by any name.
-/

namespace FuzzyInference

namespace Json

/-! ## Strings -/

theorem readUnits_plain {c : Char} (quote : c ≠ '"') (backslash : c ≠ '\\')
    (printable : 0x20 ≤ c.toNat) (fuel : Nat) (rest : List Char) (read : List Nat) :
    readUnits (fuel + 1) (c :: rest) read = readUnits fuel rest (c.toNat :: read) := by
  have accepted : ¬ (decide (c.toNat < 0x20) || decide (c = '\\')) = true := by
    simp [backslash, printable]
  rw [readUnits, if_neg accepted]
  · exact quote
  · exact fun _ same _ => backslash same
  · exact fun _ _ same _ => backslash same

theorem hexDigit?_digitChar {n : Nat} (h : n < 16) : hexDigit? (Nat.digitChar n) = some n := by
  have all : ∀ n : Fin 16, hexDigit? (Nat.digitChar n) = some n.val := by decide
  exact all ⟨n, h⟩

theorem readUnit_digitChars {n : Nat} (h : n < 256) (rest : List Char) :
    readUnit ('0' :: '0' :: Nat.digitChar (n / 16) :: Nat.digitChar (n % 16) :: rest) =
      some (n, rest) := by
  have zero : hexDigit? '0' = some 0 := rfl
  have value : n / 16 * 16 + n % 16 = n := Nat.div_add_mod' n 16
  simp [readUnit, zero, hexDigit?_digitChar (Nat.div_lt_of_lt_mul h : n / 16 < 16),
    hexDigit?_digitChar (Nat.mod_lt n (by decide : 0 < 16)), value]

/-- One reading takes a character from its escape. -/
theorem readUnits_escape (c : Char) (fuel : Nat) (rest : List Char) (read : List Nat) :
    readUnits (fuel + 1) (escape c ++ rest) read = readUnits fuel rest (c.toNat :: read) := by
  unfold escape
  split
  case h_8 quote backslash _ _ _ _ _ =>
    split
    case isTrue control =>
      have small : c.toNat < 256 := Nat.lt_trans control (by decide)
      have unit := readUnit_digitChars small rest
      simp [readUnits, unit]
    case isFalse printable =>
      exact readUnits_plain quote backslash (Nat.le_of_not_lt printable) fuel rest read
  all_goals simp [readUnits, escaped?]

/-- The numbers of characters are joined to these characters, as none of them is a surrogate. -/
theorem joinSurrogates_map (cs : List Char) : joinSurrogates (cs.map Char.toNat) = some cs := by
  induction cs with
  | nil => rfl
  | cons c cs ih =>
    have valid : c.toNat < 0xD800 ∨ 0xDFFF < c.toNat ∧ c.toNat < 0x110000 := c.valid
    have high : isHighSurrogate c.toNat = false := by
      simp only [isHighSurrogate, Bool.and_eq_false_iff, decide_eq_false_iff_not]
      omega
    have low : isLowSurrogate c.toNat = false := by
      simp only [isLowSurrogate, Bool.and_eq_false_iff, decide_eq_false_iff_not]
      omega
    cases cs with
    | nil => simp [joinSurrogates, high, low, Char.ofNat_toNat]
    | cons d cs =>
      rw [List.map_cons, List.map_cons, joinSurrogates, ← List.map_cons, ih, high, low]
      simp [Char.ofNat_toNat]

theorem readUnits_flatMap (cs : List Char) {fuel : Nat} (h : cs.length < fuel) (rest : List Char)
    (read : List Nat) : readUnits fuel (cs.flatMap escape ++ '"' :: rest) read =
      some (read.reverse ++ cs.map Char.toNat, rest) := by
  induction cs generalizing fuel read with
  | nil =>
    obtain ⟨fuel, rfl⟩ : ∃ f, fuel = f + 1 := Nat.exists_eq_add_one.2 h
    simp [readUnits]
  | cons c cs ih =>
    obtain ⟨fuel, rfl⟩ : ∃ f, fuel = f + 1 := Nat.exists_eq_add_one.2 (Nat.zero_lt_of_lt h)
    rw [List.flatMap_cons, List.append_assoc, readUnits_escape, ih (Nat.lt_of_succ_lt_succ h)]
    simp

theorem length_le_flatMap_escape (cs : List Char) : cs.length ≤ (cs.flatMap escape).length := by
  have long (c : Char) : 1 ≤ (escape c).length := by
    unfold escape
    split <;> try split
    all_goals simp
  induction cs with
  | nil => exact Nat.le_refl 0
  | cons c cs ih =>
    have one := long c
    rw [List.flatMap_cons, List.length_append, List.length_cons]
    omega

theorem readString_escaped (s : String) (rest : List Char) :
    readString (s.toList.flatMap escape ++ '"' :: rest) = some (some s, rest) := by
  have room : s.toList.length < (s.toList.flatMap escape ++ '"' :: rest).length + 1 := by
    have long := length_le_flatMap_escape s.toList
    rw [List.length_append]
    omega
  rw [readString, readUnits_flatMap s.toList room]
  simp [joinSurrogates_map]

/-! ## Counts -/

/-- What can stand behind a value: a comma, a closing mark, or nothing. -/
def Ends (rest : List Char) : Prop := ∀ c ∈ rest.head?, c = ',' ∨ c = '\x7d' ∨ c = ']'

theorem Ends.skipBlanks_eq {rest : List Char} (h : Ends rest) : skipBlanks rest = rest := by
  cases rest with
  | nil => rfl
  | cons c rest =>
    have noBlank : ¬ isBlank c = true := by
      rcases h c rfl with rfl | rfl | rfl <;> decide
    exact List.dropWhile_cons_of_neg noBlank

/-- Digits in front of what ends a value are all the digits there. -/
theorem takeDigits {digits rest : List Char} (digit : ∀ c ∈ digits, c.isDigit = true)
    (h : Ends rest) : (digits ++ rest).takeWhile Char.isDigit = digits ∧
      (digits ++ rest).dropWhile Char.isDigit = rest := by
  have stops : rest.takeWhile Char.isDigit = [] ∧ rest.dropWhile Char.isDigit = rest := by
    cases rest with
    | nil => exact ⟨rfl, rfl⟩
    | cons c rest =>
      have other : ¬ c.isDigit = true := by
        rcases h c rfl with rfl | rfl | rfl <;> decide
      exact ⟨List.takeWhile_cons_of_neg other, List.dropWhile_cons_of_neg other⟩
  rw [List.takeWhile_append_of_pos digit, List.dropWhile_append_of_pos digit, stops.1, stops.2,
    List.append_nil]
  exact ⟨rfl, rfl⟩

/-- Digits are neither blanks nor the marks of other values. -/
theorem ne_of_isDigit {d c : Char} (digit : d.isDigit = true) (other : c.isDigit = false) :
    d ≠ c := by
  rintro rfl
  exact absurd (digit.symm.trans other) (by decide)

theorem isDigit_of_mem_toDigits {n : Nat} : ∀ c ∈ Nat.toDigits 10 n, c.isDigit = true :=
  fun _ hc => Nat.isDigit_of_mem_toDigits (by decide) (by decide) hc

/-- Only zero is written with a zero at the front, and that alone. -/
theorem toDigits_cases (n : Nat) :
    Nat.toDigits 10 n = ['0'] ∨ (Nat.toDigits 10 n).head? ≠ some '0' := by
  induction n using Nat.strongRecOn with
  | ind n ih =>
    by_cases small : n < 10
    · rw [Nat.toDigits_eq_if (by decide), if_pos small]
      by_cases zero : n = 0
      · exact .inl (by rw [zero]; rfl)
      · right
        rw [List.head?_cons, ne_eq, Option.some.injEq, Nat.digitChar_eq_zero]
        exact zero
    · rw [Nat.toDigits_of_base_le (by decide) (Nat.le_of_not_lt small),
        List.head?_append_of_ne_nil _ Nat.toDigits_ne_nil]
      rcases ih (n / 10) (by omega) with zero | other
      · have value : Nat.ofDigitChars 10 (Nat.toDigits 10 (n / 10)) 0 = n / 10 :=
          Nat.ofDigitChars_ten_toDigits
        rw [zero] at value
        have front : n / 10 = 0 := value.symm
        omega
      · exact .inr other

theorem readWhole_toDigits (n : Nat) {rest : List Char} (h : Ends rest) :
    readWhole (Nat.toDigits 10 n ++ rest) = some (Nat.toDigits 10 n, rest) := by
  obtain ⟨taken, dropped⟩ := takeDigits (isDigit_of_mem_toDigits (n := n)) h
  have digits : readDigits (Nat.toDigits 10 n ++ rest) = some (Nat.toDigits 10 n, rest) := by
    rw [readDigits, taken, dropped, if_neg]
    simp [Nat.toDigits_ne_nil]
  rcases toDigits_cases n with zero | other
  · rw [zero]
    rfl
  · rw [readWhole]
    · exact digits
    · intro behind same
      rw [← List.head?_append_of_ne_nil _ Nat.toDigits_ne_nil, same] at other
      exact other rfl

theorem Ends.readFraction_eq {rest : List Char} (h : Ends rest) :
    readFraction rest = some ([], rest) := by
  rw [readFraction]
  rintro behind rfl
  exact absurd (h '.' rfl) (by decide)

theorem Ends.readExponent_eq {rest : List Char} (h : Ends rest) :
    readExponent rest = some ([], rest) := by
  cases rest with
  | nil => rfl
  | cons c rest =>
    have noMark : ¬ (decide (c = 'e') || decide (c = 'E')) = true := by
      rcases h c rfl with rfl | rfl | rfl <;> decide
    rw [readExponent.eq_def]
    exact if_neg noMark

theorem readNumber_toDigits (n : Nat) {rest : List Char} (h : Ends rest) :
    readNumber (Nat.toDigits 10 n ++ rest) = some (String.ofList (Nat.toDigits 10 n), rest) := by
  obtain ⟨d, ds, digits⟩ := List.exists_cons_of_ne_nil (Nat.toDigits_ne_nil (n := n) (b := 10))
  have digit : d.isDigit = true := isDigit_of_mem_toDigits d (digits ▸ List.mem_cons_self)
  have whole := readWhole_toDigits n h
  rw [digits, List.cons_append] at whole ⊢
  simp [readNumber, ne_of_isDigit digit, whole, h.readFraction_eq, h.readExponent_eq]

/-! ## Values -/

/-- From the text comes the value, whatever stands behind it. -/
def Writes (text : List Char) (value : Json) : Prop :=
  ∀ fuel rest, text.length ≤ fuel → Ends rest →
    readValue fuel (text ++ rest) = some (value, rest)

theorem writes_string (s : String) :
    Writes (writeString (some s)) (.string (some s)) := by
  intro fuel rest room ends
  obtain ⟨fuel, rfl⟩ : ∃ f, fuel = f + 1 := Nat.exists_eq_add_one.2 (by
    simp only [writeString, List.length_cons, List.length_append] at room
    omega)
  have noBlank : skipBlanks (writeString (some s) ++ rest) =
      '"' :: (s.toList.flatMap escape ++ '"' :: rest) := by
    rw [writeString, List.append_assoc]
    rfl
  rw [readValue, noBlank]
  simp [readString_escaped, ends.skipBlanks_eq]

theorem writes_ofCount (n : UInt64) : Writes (ofCount n).write (ofCount n) := by
  intro fuel rest room ends
  obtain ⟨d, ds, digits⟩ :=
    List.exists_cons_of_ne_nil (Nat.toDigits_ne_nil (n := n.toNat) (b := 10))
  have digit : d.isDigit = true := isDigit_of_mem_toDigits d (digits ▸ List.mem_cons_self)
  have number := readNumber_toDigits n.toNat ends
  simp only [ofCount, write, String.toList_ofList] at room ⊢
  rw [digits, List.cons_append] at number
  rw [digits] at room ⊢
  obtain ⟨fuel, rfl⟩ : ∃ f, fuel = f + 1 := Nat.exists_eq_add_one.2 (Nat.zero_lt_of_lt room)
  have noBlank : skipBlanks (d :: (ds ++ rest)) = d :: (ds ++ rest) :=
    List.dropWhile_cons_of_neg (by simp [isBlank, ne_of_isDigit digit])
  rw [readValue, List.cons_append, noBlank]
  simp [ne_of_isDigit digit, number, ends.skipBlanks_eq]

/-! ## Objects -/

/-- From the text and a closing brace come the members, behind those already read. -/
structure WritesMembers (text : List Char) (members : List (Option String × Json)) : Prop where
  quote : ∃ others, text = '"' :: others
  reads : ∀ fuel rest read, text.length ≤ fuel →
    readMembers fuel (text ++ '\x7d' :: rest) read = some (read.reverse ++ members, rest)

/-- A key, a colon and a value. -/
def memberText (key : String) (text : List Char) : List Char :=
  writeString (some key) ++ ':' :: text

/-- What is read behind a member: further members, or the end of them. -/
def readBehind (fuel : Nat) (rest : List Char) (read : List (Option String × Json)) :
    Option (List (Option String × Json) × List Char) :=
  match rest with
  | ',' :: rest => readMembers fuel rest read
  | '\x7d' :: rest => some (read.reverse, rest)
  | _ => none

theorem readMembers_memberText (key : String) {text : List Char} {value : Json}
    (h : Writes text value) {fuel : Nat} (room : text.length ≤ fuel) {rest : List Char}
    (ends : Ends rest) (read : List (Option String × Json)) :
    readMembers (fuel + 1) (memberText key text ++ rest) read =
      readBehind fuel rest ((some key, value) :: read) := by
  have noBlank : skipBlanks (memberText key text ++ rest) =
      '"' :: (key.toList.flatMap escape ++ '"' :: ':' :: (text ++ rest)) := by
    simp only [memberText, writeString, List.cons_append, List.append_assoc]
    rfl
  have colon : skipBlanks (':' :: (text ++ rest)) = ':' :: (text ++ rest) := rfl
  rw [readMembers, noBlank]
  simp [readString_escaped, colon, h fuel rest room ends, -List.reverse_cons]
  rfl

theorem length_memberText (key : String) (text : List Char) :
    text.length < (memberText key text).length := by
  rw [memberText, List.length_append, List.length_cons]
  omega

theorem writesMembers_single (key : String) {text : List Char} {value : Json}
    (h : Writes text value) : WritesMembers (memberText key text) [(some key, value)] := by
  refine ⟨⟨_, rfl⟩, fun fuel rest read room => ?_⟩
  have ends : Ends ('\x7d' :: rest) := by
    rintro _ ⟨⟩
    exact .inr (.inl rfl)
  have long := length_memberText key text
  obtain ⟨fuel, rfl⟩ : ∃ f, fuel = f + 1 := Nat.exists_eq_add_one.2 (by omega)
  rw [readMembers_memberText key h (by omega) ends, readBehind, List.reverse_cons]

theorem WritesMembers.cons (key : String) {text texts : List Char} {value : Json}
    {members : List (Option String × Json)} (h : Writes text value)
    (others : WritesMembers texts members) :
    WritesMembers (memberText key text ++ ',' :: texts) ((some key, value) :: members) := by
  refine ⟨⟨_, rfl⟩, fun fuel rest read room => ?_⟩
  have ends : Ends (',' :: (texts ++ '\x7d' :: rest)) := by
    rintro _ ⟨⟩
    exact .inl rfl
  have long := length_memberText key text
  rw [List.length_append, List.length_cons] at room
  obtain ⟨fuel, rfl⟩ : ∃ f, fuel = f + 1 := Nat.exists_eq_add_one.2 (by omega)
  rw [List.append_assoc, List.cons_append, readMembers_memberText key h (by omega) ends,
    readBehind, others.reads fuel rest _ (by omega), List.reverse_cons, List.append_assoc]
  rfl

theorem writesMembers_of_forall {members : List (String × Json)} (nonempty : members ≠ [])
    (h : ∀ member ∈ members, Writes member.2.write member.2) :
    WritesMembers ([','].intercalate (members.map fun m => memberText m.1 m.2.write))
      (members.map fun m => (some m.1, m.2)) := by
  induction members with
  | nil => exact absurd rfl nonempty
  | cons member others ih =>
    obtain ⟨key, value⟩ := member
    have first := h (key, value) List.mem_cons_self
    cases others with
    | nil =>
      rw [List.map_singleton, List.intercalate_singleton]
      exact writesMembers_single key first
    | cons next others =>
      have behind := ih (List.cons_ne_nil _ _) fun m hm => h m (List.mem_cons_of_mem _ hm)
      simp only [List.map_cons, List.intercalate_cons_cons, List.append_assoc]
      exact behind.cons key first

theorem writeMembers_map (members : List (String × Json)) :
    writeMembers (members.map fun m => (some m.1, m.2)) =
      members.map fun m => memberText m.1 m.2.write := by
  induction members with
  | nil => rfl
  | cons member others ih =>
    rw [List.map_cons, writeMembers, ih]
    rfl

theorem writes_object {members : List (String × Json)}
    (h : ∀ member ∈ members, Writes member.2.write member.2) :
    Writes (ofMembers members).write (ofMembers members) := by
  intro fuel rest room ends
  rw [ofMembers, write, writeMembers_map] at room ⊢
  obtain ⟨fuel, rfl⟩ : ∃ f, fuel = f + 1 := Nat.exists_eq_add_one.2 (Nat.zero_lt_of_lt room)
  by_cases empty : members = []
  · subst empty
    have braces : skipBlanks ('\x7b' :: '\x7d' :: rest) = '\x7b' :: '\x7d' :: rest := rfl
    have close : skipBlanks ('\x7d' :: rest) = '\x7d' :: rest := rfl
    simp [readValue, braces, close, ends.skipBlanks_eq]
  · obtain ⟨⟨text, quoted⟩, reads⟩ := writesMembers_of_forall empty h
    rw [quoted] at room reads ⊢
    have noBlank : skipBlanks ('\x7b' :: '"' :: text ++ ['\x7d'] ++ rest) =
        '\x7b' :: '"' :: (text ++ '\x7d' :: rest) := by
      rw [List.append_assoc]
      rfl
    have quote : skipBlanks ('"' :: (text ++ '\x7d' :: rest)) = '"' :: (text ++ '\x7d' :: rest) :=
      rfl
    have inner := reads fuel rest [] (by simp at room ⊢; omega)
    rw [List.cons_append] at inner
    rw [readValue, noBlank]
    simp [quote, inner, ends.skipBlanks_eq]

/-! ## Texts -/

open Serialization in
theorem writes_of_nested {depth : Nat} {document : Json} (nested : Nested depth document) :
    Writes document.write document := by
  induction nested with
  | string _ s => exact writes_string s
  | count _ n => exact writes_ofCount n
  | object _ members _ _ ih => exact writes_object ih

/-- The texts of documents are read back, however deep these are nested. -/
theorem read?_text {depth : Nat} {document : Json}
    (nested : Serialization.Nested depth document) : read? document.text = some document := by
  have room : document.write.length ≤ 2 * (String.ofList document.write).length + 2 := by
    rw [String.length_ofList]
    omega
  have whole := writes_of_nested nested _ [] room nofun
  rw [List.append_nil] at whole
  rw [read?, text, String.toList_ofList, whole]

end Json

/-! ## Counts as numbers -/

theorem not_isAlpha_of_isDigit {c : Char} (digit : c.isDigit = true) : c.isAlpha = false := by
  have range : 48 ≤ c.val.toNat ∧ c.val.toNat ≤ 57 := by
    simpa [Char.isDigit, UInt32.le_iff_toNat_le] using digit
  rw [isAlpha_eq, Bool.or_eq_false_iff, ← Bool.not_eq_true, ← Bool.not_eq_true,
    isUpper_eq_true_iff, isLower_eq_true_iff]
  simp only [UInt32.le_iff_toNat_le, UInt32.reduceToNat, Char.reduceVal]
  omega

/-- A count is read as a number without point and exponent. -/
theorem Numeral.read?_toDigits (n : Nat) :
    read? (String.ofList (Nat.toDigits 10 n)) = some (.decimal false n 0) := by
  have digit := Json.isDigit_of_mem_toDigits (n := n)
  have noSign : splitSign (Nat.toDigits 10 n) = (false, Nat.toDigits 10 n) := by
    rw [splitSign]
    · rintro rest same
      exact absurd (digit '-' (same ▸ List.mem_cons_self)) (by decide)
    · rintro rest same
      exact absurd (digit '+' (same ▸ List.mem_cons_self)) (by decide)
  have noWord : String.ofList ((Nat.toDigits 10 n).map Char.toLower) ∉ specialWords := by
    intro word
    obtain ⟨d, hd⟩ := List.exists_mem_of_ne_nil _ (Nat.toDigits_ne_nil (n := n) (b := 10))
    have letter := isAlpha_of_specialWord word d hd
    exact absurd letter (by simp [not_isAlpha_of_isDigit (digit d hd)])
  obtain ⟨taken, dropped⟩ := Json.takeDigits digit (fun _ => nofun : Json.Ends [])
  rw [List.append_nil] at taken dropped
  have whole : splitFraction (Nat.toDigits 10 n) = (Nat.toDigits 10 n, [], []) := by
    rw [splitFraction, taken, dropped]
  simp only [specialWords, List.mem_cons, List.not_mem_nil, not_or] at noWord
  simp [read?, noSign, noWord, readDecimal?, whole, readExponent?,
    Defuzzification.ofDigits_eq, Nat.toDigits_ne_nil]

namespace Json

variable {ν : Type} (t : Tagging ν)

theorem readCount?_ofCount (n : UInt64) : readCount? (ofCount n) = some n := by
  have digits : (Nat.toDigits 10 n.toNat).all Char.isDigit = true :=
    List.all_eq_true.2 isDigit_of_mem_toDigits
  have bound : n.toNat < UInt64.size := n.toNat_lt_size
  simp [readCount?, ofCount, digits, Defuzzification.ofDigits_eq, bound]

/-! ## Records and variants -/

theorem isPlain_ofCount (n : UInt64) : (ofCount n).isPlain = true := by
  simp [ofCount, isPlain, Numeral.read?_toDigits, Binary64.isFinite_toBinary64 n.toNat_lt]

@[simp] theorem membersAt_self (key : String) (value : Json)
    (members : List (Option String × Json)) :
    membersAt key ((some key, value) :: members) = value :: membersAt key members := by
  simp [membersAt]

@[simp] theorem membersAt_other {key other : String} (h : other ≠ key) (value : Json)
    (members : List (Option String × Json)) :
    membersAt key ((some other, value) :: members) = membersAt key members := by
  simp [membersAt, h]

@[simp] theorem membersAt_nil (key : String) : membersAt key [] = [] := rfl

/-- What nests no further is read by its parts. -/
theorem readTagged?_object {members : List (Option String × Json)}
    (plain : membersArePlain members = true) (shallow : depthOfMembers members = 0) :
    readTagged? t (.object members) =
      readParts? t (membersAt t.tag members) (membersAt t.field.name members) := by
  have accepted : ¬ (!(object members).isPlain || decide (maxDepth ≤ (object members).depth)) =
      true := by
    rw [isPlain, depth, plain, shallow]
    decide
  rw [readTagged?.eq_def, if_neg accepted]

theorem readTagged?_tagged (name : String) (n : UInt64) :
    readTagged? t (Serialization.tagged t name n) = (t.ofName? name).map (·, n) := by
  have plain : membersArePlain [(some t.tag, string (some name)),
      (some t.field.name, ofCount n)] = true := by
    simp [membersArePlain, isPlain, isPlain_ofCount]
  have parts := readTagged?_object t plain rfl
  rw [membersAt_self, membersAt_other t.apart, membersAt_other t.apart.symm,
    membersAt_self] at parts
  refine parts.trans ?_
  cases found : t.ofName? name <;>
    simp [readParts?, readVariant?, readField?, found, readCount?_ofCount]

theorem readTagged?_tag (name : String) :
    readTagged? t (ofMembers [(t.tag, .string (some name))]) =
      (t.ofName? name).map (·, t.field.default) := by
  have plain : membersArePlain [(some t.tag, string (some name))] = true := rfl
  have parts := readTagged?_object t plain rfl
  rw [membersAt_self, membersAt_other t.apart.symm] at parts
  refine parts.trans ?_
  cases found : t.ofName? name <;> simp [readParts?, readVariant?, readField?, found]

end Json

open Json

instance : LawfulSerialization Json where
  read?_text := read?_text
  writeRecord_eq _ _ _ := rfl
  readRecord?_object field read document := by
    simp [Serialization.readRecord?, Serialization.object, ofMembers, readRecord?, readField?]
  readRecord?_default _ _ := rfl
  writeTagged_eq _ _ _ := rfl
  readTagged?_rename t v n :=
    (readTagged?_tagged t _ n).trans (by rw [t.ofName?_rename]; rfl)
  readTagged?_alias t v n name other := by
    have named : t.ofName? name = some v := t.ofName?_eq_some_iff.2 (List.mem_cons_of_mem _ other)
    exact (readTagged?_tagged t _ n).trans (by rw [named]; rfl)
  readTagged?_unknown t n name unknown :=
    (readTagged?_tagged t name n).trans (by rw [t.ofName?_eq_none unknown]; rfl)
  readTagged?_default t v :=
    (readTagged?_tag t _).trans (by rw [t.ofName?_rename]; rfl)

end FuzzyInference
