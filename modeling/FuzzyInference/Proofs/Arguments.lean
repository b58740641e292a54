import FuzzyInference.Proofs.Numerals
import FuzzyInference.Proofs.Yield
import Mathlib.Data.List.Forall2

/-!
# Lists of arguments

Numbers in parentheses are read token by token. Wherever this starts and wherever it stops, the
tokens in front say how it ends and where the cursor is left.

* `Place`, `Place.Fits`, `Place.Spoils`: what has to stand at one place, which tokens do, and which
  are used up although they do not;
* `Reading.Fills`: reading that goes through some places, up to their end or to the first one whose
  token does not fit;
* `Fills.bind`, `fills_expect`, `fills_number`, `fills_numbers`, `fills_arguments`: what goes
  through which places;
* `arguments_before`: the arguments of a function, in front of any token of any source.
-/

namespace FuzzyInference

/-! ## Places -/

/-- What has to stand at one place, and what is wrong with a source that has another word there. -/
inductive Place where
  | mark (kind : TokenKind) (problem : Problem)
  | number (problem : Problem)

namespace Place

def kind : Place → TokenKind
  | mark kind _ => kind
  | number _ => .identifier

def problem : Place → Problem
  | mark _ problem => problem
  | number problem => problem

/-- The token can stand in the place. -/
def Fits : Place → Token → Prop
  | mark kind _, t => t.kind = kind
  | number _, t => t.kind = .identifier ∧ (Numeral.read? t.text).isSome

/-- The token is a word in the place of a number, and is none. -/
def Spoils : Place → Token → Prop
  | mark _ _, _ => False
  | number _, t => t.kind = .identifier ∧ Numeral.read? t.text = none

/-- The error at a place that the next token does not fit, and the cursor it leaves. -/
inductive Refuses (place : Place) (c : Cursor) : ParseError → Cursor → Prop
  | other (h : c.peekKind ≠ some place.kind) : Refuses place c ⟨place.problem, c.position⟩ c
  | spoilt {t : Token} {ts : List Token} (next : c.rest = t :: ts) (h : place.Spoils t) :
      Refuses place c ⟨.invalidNumber t.text, t.position⟩ { c with rest := ts }

/-- Tokens fit places one behind the other if they can be split into tokens for each of them. -/
theorem fits_append_iff {ps qs : List Place} {tokens : List Token} :
    List.Forall₂ Fits (ps ++ qs) tokens ↔
      ∃ ts us, tokens = ts ++ us ∧ List.Forall₂ Fits ps ts ∧ List.Forall₂ Fits qs us := by
  constructor
  · intro h
    exact ⟨_, _, (List.take_append_drop ps.length tokens).symm,
      by simpa using List.forall₂_take ps.length h, by simpa using List.forall₂_drop ps.length h⟩
  · rintro ⟨ts, us, rfl, hp, hq⟩
    exact List.rel_append hp hq

/-- Either tokens fit all the places, or there is a first place that the next token does not fit. -/
theorem fit_or_misfit (places : List Place) (tokens : List Token) :
    (∃ used rest, tokens = used ++ rest ∧ List.Forall₂ Fits places used) ∨
      ∃ k place used rest, places[k]? = some place ∧ tokens = used ++ rest ∧
        List.Forall₂ Fits (places.take k) used ∧ ∀ t ∈ rest.head?, ¬ place.Fits t := by
  induction places generalizing tokens with
  | nil => exact .inl ⟨[], tokens, rfl, .nil⟩
  | cons place places ih =>
    by_cases h : ∀ t ∈ tokens.head?, ¬ place.Fits t
    · exact .inr ⟨0, place, [], tokens, rfl, rfl, .nil, h⟩
    · push Not at h
      obtain ⟨t, ht, fits⟩ := h
      obtain ⟨ts, rfl⟩ := List.head?_eq_some_iff.1 ht
      obtain ⟨used, rest, rfl, all⟩ | ⟨k, misfit, used, rest, hk, rfl, front, here⟩ := ih ts
      · exact .inl ⟨t :: used, rest, rfl, .cons fits all⟩
      · exact .inr ⟨k + 1, misfit, t :: used, rest, hk, rfl, .cons fits front, here⟩

end Place

/-! ## Reading through places -/

namespace Reading

variable {α β γ : Type}

/-- Tokens that fit the places are used up, for a value that `value` makes of them. At the first one
that does not fit there is an error. -/
structure Fills (x : Reading β) (places : List Place) (value : List Token → β → Prop) : Prop where
  whole : ∀ (c : Cursor) (used rest : List Token), c.rest = used ++ rest →
    List.Forall₂ Place.Fits places used →
      ∃ v, value used v ∧ (x c).result = .ok v ∧ (x c).next = { c with rest := rest }
  partly : ∀ (c : Cursor) (k : Nat) (place : Place) (used rest : List Token),
    places[k]? = some place → c.rest = used ++ rest →
      List.Forall₂ Place.Fits (places.take k) used → (∀ t ∈ rest.head?, ¬ place.Fits t) →
        ∃ e, (x c).result = .error e ∧ place.Refuses { c with rest := rest } e (x c).next

theorem bind_ok {x : Reading β} {f : β → Reading γ} {c : Cursor} {v : β}
    (h : (x c).result = .ok v) :
    ((x >>= f) c).result = (f v (x c).next).result ∧
      ((x >>= f) c).next = (f v (x c).next).next := by
  have same : (x >>= f) c = (f v (x c).next).since (x c).forward := Reply.andThen_ok h
  rw [same]
  exact ⟨rfl, rfl⟩

theorem bind_error {x : Reading β} {f : β → Reading γ} {c : Cursor} {e : ParseError}
    (h : (x c).result = .error e) :
    ((x >>= f) c).result = .error e ∧ ((x >>= f) c).next = (x c).next := by
  have same : (x >>= f) c = ⟨.error e, (x c).next, (x c).forward⟩ := Reply.andThen_error h
  rw [same]
  exact ⟨rfl, rfl⟩

theorem Fills.imp {x : Reading β} {places : List Place} {value value' : List Token → β → Prop}
    (h : x.Fills places value)
    (imp : ∀ used v, List.Forall₂ Place.Fits places used → value used v → value' used v) :
    x.Fills places value' where
  whole c used rest hr fits := by
    obtain ⟨v, hv, result, next⟩ := h.whole c used rest hr fits
    exact ⟨v, imp used v fits hv, result, next⟩
  partly := h.partly

theorem fills_pure (v : β) : (pure v : Reading β).Fills [] fun used w => used = [] ∧ w = v where
  whole c used rest hr fits := by
    obtain rfl := List.forall₂_nil_left_iff.1 fits
    exact ⟨v, ⟨rfl, rfl⟩, rfl, by rw [← List.nil_append rest, ← hr]; rfl⟩
  partly c k place used rest hk := by simp at hk

theorem Fills.bind {x : Reading β} {f : β → Reading γ} {ps qs : List Place}
    {value : List Token → β → Prop} {behind : β → List Token → γ → Prop} (first : x.Fills ps value)
    (second : ∀ v, (f v).Fills qs (behind v)) :
    (x >>= f).Fills (ps ++ qs) fun used w =>
      ∃ ts us v, used = ts ++ us ∧ value ts v ∧ behind v us w where
  whole c used rest hr fits := by
    obtain ⟨ts, us, rfl, hp, hq⟩ := Place.fits_append_iff.1 fits
    obtain ⟨v, hv, result, next⟩ := first.whole c ts (us ++ rest) (by rw [hr, List.append_assoc]) hp
    obtain ⟨result', next'⟩ := bind_ok (f := f) result
    obtain ⟨w, hw, yields, last⟩ := (second v).whole (x c).next us rest (by rw [next]) hq
    exact ⟨w, ⟨ts, us, v, rfl, hv, hw⟩, result'.trans yields, by rw [next', last, next]⟩
  partly c k place used rest hk hr fits misfit := by
    by_cases inFirst : k < ps.length
    · rw [List.getElem?_append_left inFirst] at hk
      rw [List.take_append_of_le_length (Nat.le_of_lt inFirst)] at fits
      obtain ⟨e, he, refuses⟩ := first.partly c k place used rest hk hr fits misfit
      obtain ⟨result, next⟩ := bind_error (f := f) he
      exact ⟨e, result, by rwa [next]⟩
    · rw [Nat.not_lt] at inFirst
      rw [List.getElem?_append_right inFirst] at hk
      rw [List.take_append, List.take_of_length_le inFirst] at fits
      obtain ⟨ts, us, rfl, hp, hq⟩ := Place.fits_append_iff.1 fits
      obtain ⟨v, -, result, next⟩ :=
        first.whole c ts (us ++ rest) (by rw [hr, List.append_assoc]) hp
      obtain ⟨result', next'⟩ := bind_ok (f := f) result
      obtain ⟨e, he, refuses⟩ :=
        (second v).partly (x c).next _ place us rest hk (by rw [next]) hq misfit
      exact ⟨e, result'.trans he, by rw [next']; simpa only [next] using refuses⟩

/-- A token that is expected fills one place. -/
theorem fills_expect (kind : TokenKind) (problem : Problem) :
    (expect kind problem).Fills [.mark kind problem] fun used t => used = [t] ∧ t.kind = kind where
  whole c used rest hr fits := by
    obtain ⟨t, _, hk, last, rfl⟩ := List.forall₂_cons_left_iff.1 fits
    obtain rfl := List.forall₂_nil_left_iff.1 last
    obtain ⟨result, next⟩ := expectAt_cons c.position problem hr hk
    exact ⟨t, ⟨rfl, hk⟩, result, next⟩
  partly c k place used rest hk hr fits misfit := by
    obtain ⟨rfl, rfl⟩ : k = 0 ∧ place = .mark kind problem := by
      cases k <;> simp_all
    obtain rfl := List.forall₂_nil_left_iff.1 fits
    have same : { c with rest := rest } = c := by rw [← List.nil_append rest, ← hr]
    have other : c.peekKind ≠ some kind := by
      intro here
      obtain ⟨t, ts, ht, hk⟩ := Cursor.peekKind_eq_some_iff.1 here
      rw [hr, List.nil_append] at ht
      exact misfit t (by rw [ht]; rfl) hk
    rw [expect, expectAt_error other, same]
    exact ⟨_, rfl, .other other⟩

variable [Scalar α]

/-- A word in the place of a number is used up, whether it is one or not. -/
theorem number_cons (problem : Problem) {c : Cursor} {t : Token} {ts : List Token}
    (hr : c.rest = t :: ts) (hk : t.kind = .identifier) :
    (number problem c : Reply c α).result =
        (match Numeral.read? t.text with
          | some numeral => .ok (Scalar.ofNumeral numeral)
          | none => .error ⟨.invalidNumber t.text, t.position⟩) ∧
      (number problem c : Reply c α).next = { c with rest := ts } := by
  have word : (expect .identifier problem c).result = .ok t :=
    (expectAt_cons c.position problem hr hk).1
  have behind : (expect .identifier problem c).next = { c with rest := ts } :=
    (expectAt_cons c.position problem hr hk).2
  rw [number, (bind_ok word).1, (bind_ok word).2, ← behind]
  cases Numeral.read? t.text <;> exact ⟨rfl, rfl⟩

theorem number_error (problem : Problem) {c : Cursor} (h : c.peekKind ≠ some .identifier) :
    (number problem c : Reply c α).result = .error ⟨problem, c.position⟩ ∧
      (number problem c : Reply c α).next = c := by
  have missing : expectAt c.position .identifier problem c = Reply.error c ⟨problem, c.position⟩ :=
    expectAt_error h
  have stops : (expect .identifier problem c).result = .error ⟨problem, c.position⟩ := by
    rw [expect, missing]
    rfl
  obtain ⟨result, next⟩ := bind_error stops
  rw [number, result, next, expect, missing]
  exact ⟨rfl, rfl⟩

theorem fills_number (problem : Problem) :
    (number problem : Reading α).Fills [.number problem] fun used x =>
      ∃ t numeral, used = [t] ∧ Numeral.read? t.text = some numeral ∧
        Scalar.ofNumeral numeral = x where
  whole c used rest hr fits := by
    obtain ⟨t, _, ⟨hk, reads⟩, last, rfl⟩ := List.forall₂_cons_left_iff.1 fits
    obtain rfl := List.forall₂_nil_left_iff.1 last
    obtain ⟨numeral, hn⟩ := Option.isSome_iff_exists.1 reads
    obtain ⟨result, next⟩ := number_cons (α := α) problem hr hk
    rw [hn] at result
    exact ⟨_, ⟨t, numeral, rfl, hn, rfl⟩, result, next⟩
  partly c k place used rest hk hr fits misfit := by
    obtain ⟨rfl, rfl⟩ : k = 0 ∧ place = .number problem := by
      cases k <;> simp_all
    obtain rfl := List.forall₂_nil_left_iff.1 fits
    have same : { c with rest := rest } = c := by rw [← List.nil_append rest, ← hr]
    rw [same]
    by_cases word : c.peekKind = some .identifier
    · obtain ⟨t, ts, ht, hk⟩ := Cursor.peekKind_eq_some_iff.1 word
      have noNumber : Numeral.read? t.text = none := by
        rw [List.nil_append] at hr
        have := misfit t (by rw [← hr, ht]; rfl)
        simpa [Place.Fits, hk] using this
      obtain ⟨result, next⟩ := number_cons (α := α) problem ht hk
      rw [noNumber] at result
      exact ⟨_, result, next ▸ .spoilt ht ⟨hk, noNumber⟩⟩
    · obtain ⟨result, next⟩ := number_error (α := α) problem word
      exact ⟨_, result, next.symm ▸ .other word⟩

end Reading

/-! ## Lists of numbers -/

section

open Reading

variable {α : Type} [Scalar α]

def numberPlaces (function : String) (count : Nat) : List Place :=
  ((List.range count).map fun i => .number (.missingArgument function i)).intersperse
    (.mark .comma .missingArgumentSeparator)

def argumentPlaces (function : String) (count : Nat) : List Place :=
  .mark .openParen (.unopenedArguments function) ::
    (numberPlaces function count ++ [.mark .closeParen (.unclosedArguments function)])

def numbersOf (tokens : List Token) : List α :=
  tokens.filterMap fun t => (Numeral.read? t.text).map Scalar.ofNumeral

theorem numbersOf_append (ts us : List Token) :
    (numbersOf (ts ++ us) : List α) = numbersOf ts ++ numbersOf us := List.filterMap_append

theorem numbersOf_mark {t : Token} (h : t.kind ≠ .identifier) : (numbersOf [t] : List α) = [] := by
  have noNumber : Numeral.read? t.text = none := by
    cases hn : Numeral.read? t.text with
    | none => rfl
    | some numeral => exact absurd (ofText_of_read? hn) h
  simp [numbersOf, noNumber]

theorem numbersOf_number {t : Token} {numeral : Numeral} (h : Numeral.read? t.text = some numeral) :
    (numbersOf [t] : List α) = [Scalar.ofNumeral numeral] := by
  simp [numbersOf, h]

theorem intersperse_concat {β : Type} (mark : β) {xs : List β} (h : xs ≠ []) (x : β) :
    (xs ++ [x]).intersperse mark = xs.intersperse mark ++ [mark, x] := by
  induction xs with
  | nil => exact absurd rfl h
  | cons y xs ih =>
    cases xs with
    | nil => rfl
    | cons z xs => simpa using ih (by simp)

theorem numberPlaces_succ (function : String) {count : Nat} (h : 0 < count) :
    numberPlaces function (count + 1) = numberPlaces function count ++
      [.mark .comma .missingArgumentSeparator, .number (.missingArgument function count)] := by
  rw [numberPlaces, List.range_succ, List.map_append, List.map_singleton,
    intersperse_concat _ (by simpa using h.ne'), numberPlaces]

theorem fills_numbers (function : String) (count : Nat) :
    (numbers function count : Reading (Vector α count)).Fills (numberPlaces function count)
      fun used xs => xs.toList = numbersOf used := by
  induction count with
  | zero =>
    refine (fills_pure (#v[] : Vector α 0)).imp ?_
    rintro _ _ - ⟨rfl, rfl⟩
    rfl
  | succ count ih =>
    rw [numbers]
    by_cases more : 0 < count
    · simp only [more, if_true, numberPlaces_succ function more]
      refine (ih.bind fun before => (fills_expect .comma _).bind fun comma =>
        (fills_number _).bind fun x => fills_pure (before.push x)).imp ?_
      rintro _ _ - ⟨ts, _, xs, rfl, hxs, _, _, comma, rfl, ⟨rfl, hc⟩, _, _, x, rfl,
        ⟨t, numeral, rfl, hn, rfl⟩, rfl, rfl⟩
      have noNumber : (numbersOf [comma] : List α) = [] := numbersOf_mark (by rw [hc]; decide)
      rw [Vector.toList_push, hxs, numbersOf_append, numbersOf_append, noNumber, List.append_nil,
        List.nil_append, numbersOf_number hn]
    · obtain rfl : count = 0 := by omega
      simp only [Nat.lt_irrefl, if_false]
      refine (ih.bind fun before =>
        (fills_number _).bind fun x => fills_pure (before.push x)).imp ?_
      rintro _ _ - ⟨ts, _, xs, rfl, hxs, _, _, x, rfl, ⟨t, numeral, rfl, hn, rfl⟩, rfl, rfl⟩
      rw [Vector.toList_push, hxs, numbersOf_append, List.append_nil, numbersOf_number hn]

theorem fills_arguments (function : String) (count : Nat) :
    (arguments function count : Reading (Vector α count)).Fills (argumentPlaces function count)
      fun used xs => xs.toList = numbersOf used := by
  refine ((fills_expect .openParen _).bind fun _ => (fills_numbers function count).bind fun xs =>
    (fills_expect .closeParen _).bind fun _ => fills_pure xs).imp ?_
  rintro _ _ - ⟨_, _, first, rfl, ⟨rfl, hf⟩, ts, _, xs, rfl, hxs,
    _, _, last, rfl, ⟨rfl, hl⟩, rfl, rfl⟩
  have opens : (numbersOf [first] : List α) = [] := numbersOf_mark (by rw [hf]; decide)
  have closes : (numbersOf [last] : List α) = [] := numbersOf_mark (by rw [hl]; decide)
  rw [hxs, numbersOf_append, numbersOf_append, opens, List.append_nil, closes, List.append_nil,
    List.nil_append]

/-! ## Arguments in a source -/

/-- The cursor in front of the token with the index `i`. -/
def Cursor.before (tokens : List Token) (i : Nat) : Cursor :=
  { Cursor.ofTokens tokens with rest := tokens.drop i }

theorem Cursor.position_before (tokens : List Token) (i : Nat) :
    (Cursor.before tokens i).position =
      ((tokens[i]?.or tokens.getLast?).map (·.position)).getD .start := by
  rw [Cursor.position, Cursor.peek, Cursor.before, List.head?_drop]
  cases tokens[i]? <;> rfl

/-- How many tokens the arguments take. -/
def argumentWidth (count : Nat) : Nat := if count = 0 then 2 else 2 * count + 1

theorem length_argumentPlaces (function : String) (count : Nat) :
    (argumentPlaces function count).length = argumentWidth count := by
  simp only [argumentPlaces, numberPlaces, List.length_cons, List.length_append,
    List.length_intersperse, List.length_map, List.length_range, List.length_nil, argumentWidth]
  split <;> omega

/-- From the token with the index `i` on, there is an error at the first token that does not fit its
place, or at the last token of all when none is left. The cursor is left with the index `j`. -/
inductive StopsAt (places : List Place) (tokens : List Token) (i : Nat) :
    (e : ParseError) → (j : Nat) → Prop
  | other {k : Nat} {place : Place} (hk : places[k]? = some place)
      (front : List.Forall₂ Place.Fits (places.take k) ((tokens.drop i).take k))
      (misfit : ∀ t, tokens[i + k]? = some t → t.kind ≠ place.kind) :
      StopsAt places tokens i
        ⟨place.problem, ((tokens[i + k]?.or tokens.getLast?).map (·.position)).getD .start⟩ (i + k)
  | spoilt {k : Nat} {place : Place} {t : Token} (hk : places[k]? = some place)
      (front : List.Forall₂ Place.Fits (places.take k) ((tokens.drop i).take k))
      (next : tokens[i + k]? = some t) (h : place.Spoils t) :
      StopsAt places tokens i ⟨.invalidNumber t.text, t.position⟩ (i + k + 1)

theorem Reading.Fills.stopsAt {β : Type} {x : Reading β} {places : List Place}
    {value : List Token → β → Prop} (fills : x.Fills places value) {tokens : List Token} {i : Nat}
    (misfit : ¬ List.Forall₂ Place.Fits places ((tokens.drop i).take places.length)) :
    ∃ e j, StopsAt places tokens i e j ∧ (x (.before tokens i)).result = .error e ∧
      (x (.before tokens i)).next = .before tokens j := by
  obtain ⟨used, rest, parts, all⟩ | ⟨k, place, used, rest, hk, parts, front, here⟩ :=
    Place.fit_or_misfit places (tokens.drop i)
  · rw [parts, List.take_left' all.length_eq.symm] at misfit
    exact absurd all misfit
  · have length : used.length = k := by
      rw [← front.length_eq, List.length_take]
      exact Nat.min_eq_left (List.getElem?_eq_some_iff.1 hk).1.le
    obtain rfl : tokens.drop (i + k) = rest := by
      rw [← List.drop_drop, parts, List.drop_left' length]
    have passed : List.Forall₂ Place.Fits (places.take k) ((tokens.drop i).take k) := by
      rwa [parts, List.take_left' length]
    rw [List.head?_drop] at here
    obtain ⟨e, result, refuses⟩ := fills.partly (.before tokens i) k place used _ hk parts
      front (by rwa [List.head?_drop])
    generalize (x (.before tokens i)).next = next at refuses ⊢
    change place.Refuses (.before tokens (i + k)) e next at refuses
    cases refuses with
    | other other =>
      rw [Cursor.position_before] at result
      refine ⟨_, i + k, .other hk passed ?_, result, rfl⟩
      intro t ht same
      rw [← List.head?_drop] at ht
      exact other (by rw [Cursor.peekKind_eq, nextKind, Cursor.before, ht, ← same]; rfl)
    | @spoilt t ts ht spoils =>
      change tokens.drop (i + k) = t :: ts at ht
      have behind : tokens.drop (i + k + 1) = ts := by rw [← List.drop_drop, ht]; rfl
      refine ⟨_, i + k + 1, .spoilt hk passed ?_ spoils, result, ?_⟩
      · rw [← List.head?_drop, ht, List.head?_cons]
      · rw [Cursor.before, Cursor.before, behind]

theorem Reading.Fills.passes {β : Type} {x : Reading β} {places : List Place}
    {value : List Token → β → Prop} (fills : x.Fills places value) {tokens : List Token} {i : Nat}
    (fit : List.Forall₂ Place.Fits places ((tokens.drop i).take places.length)) :
    ∃ v, value ((tokens.drop i).take places.length) v ∧
      (x (.before tokens i)).result = .ok v ∧
      (x (.before tokens i)).next = .before tokens (i + places.length) := by
  obtain ⟨v, hv, result, next⟩ := fills.whole (.before tokens i) _ _
    (List.take_append_drop places.length (tokens.drop i)).symm fit
  exact ⟨v, hv, result, by rw [next, List.drop_drop]; rfl⟩

/-- Wherever the cursor stands, the arguments of a function are read exactly when the next tokens
fit their places. They are the numbers among those tokens, which are used up. Otherwise reading
stops at the first token that does not fit. -/
theorem arguments_before (function : String) (count : Nat) (tokens : List Token) (i : Nat) :
    ((∃ xs, (arguments function count (.before tokens i) :
        Reply _ (Vector α count)).result = .ok xs) ↔
      List.Forall₂ Place.Fits (argumentPlaces function count)
        ((tokens.drop i).take (argumentWidth count))) ∧
    (∀ xs : Vector α count,
      (arguments function count (.before tokens i)).result = .ok xs →
        xs.toList = numbersOf ((tokens.drop i).take (argumentWidth count)) ∧
        (arguments function count (.before tokens i) : Reply _ (Vector α count)).next =
          .before tokens (i + argumentWidth count)) ∧
    (∀ e, (arguments function count (.before tokens i) : Reply _ (Vector α count)).result =
        .error e →
      ∃ j, StopsAt (argumentPlaces function count) tokens i e j ∧
        (arguments function count (.before tokens i) : Reply _ (Vector α count)).next =
          .before tokens j) := by
  have fills := fills_arguments (α := α) function count
  rw [← length_argumentPlaces function count]
  by_cases fit : List.Forall₂ Place.Fits (argumentPlaces function count)
      ((tokens.drop i).take (argumentPlaces function count).length)
  · obtain ⟨ys, hys, result, next⟩ := fills.passes fit
    refine ⟨⟨fun _ => fit, fun _ => ⟨ys, result⟩⟩, ?_, ?_⟩
    · intro xs hx
      obtain rfl : ys = xs := by simpa [result] using hx
      exact ⟨hys, next⟩
    · intro e he
      simp [result] at he
  · obtain ⟨e, j, stops, result, next⟩ := fills.stopsAt fit
    refine ⟨⟨?_, fun h => absurd h fit⟩, ?_, ?_⟩
    · rintro ⟨xs, hx⟩
      simp [result] at hx
    · intro xs hx
      simp [result] at hx
    · intro e' he
      obtain rfl : e = e' := by simpa [result] using he
      exact ⟨j, stops, next⟩

end

end FuzzyInference
