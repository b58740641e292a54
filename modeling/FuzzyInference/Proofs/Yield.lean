import FuzzyInference.Language.Definition
import FuzzyInference.Language.Premise

/-!
# What a reading yields

* `nextKind`: the kind of the first of some tokens;
* `Reply.Yields`: the value a reply holds and the tokens it leaves;
* `yields_andThen_iff`, `yields_bind_iff`: readings one behind the other;
* `yields_expect_bind_iff`: a token of a kind in front of another reading;
* `readOperand_not`, `readOperand_notRest`, `readOperand_group`, `readOperand_proposition`: the next
  words say how an operand is read. `readPremise_induction` has a case for each of them;
* `readTerms_closeParen`, `readTerms_termWord`, `readTerms_stray`: the next word says how terms are.

A reply yields at most one value. Where the last token of the source stands plays no part.
-/

namespace FuzzyInference

/-- The kind of the first of these tokens. -/
def nextKind (tokens : List Token) : Option TokenKind := tokens.head?.map (·.kind)

@[simp] theorem nextKind_cons (t : Token) (ts : List Token) :
    nextKind (t :: ts) = some t.kind := rfl

@[simp] theorem nextKind_nil : nextKind [] = none := rfl

theorem Cursor.peekKind_eq (c : Cursor) : c.peekKind = nextKind c.rest := rfl

theorem Cursor.advance_eq {c : Cursor} {t : Token} {ts : List Token} (h : c.rest = t :: ts) :
    c.advance = { c with rest := ts } := by
  rw [Cursor.advance, h, List.tail_cons]

theorem Cursor.peekKind_eq_some_iff {c : Cursor} {kind : TokenKind} :
    c.peekKind = some kind ↔ ∃ t ts, c.rest = t :: ts ∧ t.kind = kind := by
  rw [Cursor.peekKind_eq]
  cases c.rest <;> simp

namespace Reply

variable {β γ : Type} {c d : Cursor} {v : β} {w : γ} {rest : List Token}

/-- The reply is the value `v`, and the tokens `rest` are left. -/
def Yields (r : Reply c β) (v : β) (rest : List Token) : Prop :=
  r.result = .ok v ∧ r.next.rest = rest

theorem yields_next {r : Reply c β} (h : r.result = .ok v) : r.Yields v r.next.rest := ⟨h, rfl⟩

@[simp] theorem yields_ok_iff {u : β} : (Reply.ok c u).Yields v rest ↔ u = v ∧ c.rest = rest := by
  simp [Yields, Reply.ok]

@[simp] theorem not_yields_error {e : ParseError} :
    ¬ (Reply.error c e : Reply c β).Yields v rest := by
  simp [Yields, Reply.error]

@[simp] theorem yields_since_iff {r : Reply d β} {h : d.Follows c} :
    (r.since h).Yields v rest ↔ r.Yields v rest := Iff.rfl

@[simp] theorem yields_map_iff {r : Reply c β} {f : β → γ} :
    (r.map f).Yields w rest ↔ ∃ v, r.Yields v rest ∧ f v = w := by
  cases h : r.result with
  | error e => simp [Yields, Reply.map, h, Except.map]
  | ok u => simp [Yields, Reply.map, h, Except.map, and_left_comm, and_comm]

theorem andThen_ok {r : Reply c β} {f : β → (d : Cursor) → d.Follows c → Reply d γ}
    (h : r.result = .ok v) : r.andThen f = (f v r.next r.forward).since r.forward := by
  rw [Reply.andThen, h]

theorem andThen_error {r : Reply c β} {f : β → (d : Cursor) → d.Follows c → Reply d γ}
    {e : ParseError} (h : r.result = .error e) : r.andThen f = ⟨.error e, r.next, r.forward⟩ := by
  rw [Reply.andThen, h]

theorem yields_andThen_iff {r : Reply c β} {f : β → (d : Cursor) → d.Follows c → Reply d γ} :
    (r.andThen f).Yields w rest ↔
      ∃ v, r.Yields v r.next.rest ∧ (f v r.next r.forward).Yields w rest := by
  unfold Reply.andThen
  cases h : r.result <;> simp [Yields, h, Reply.since]

end Reply

namespace Reading

variable {β γ : Type} {c : Cursor} {v : β} {w : γ} {rest : List Token}

theorem yields_bind_iff {x : Reading β} {f : β → Reading γ} :
    ((x >>= f) c).Yields w rest ↔
      ∃ v, (x c).Yields v (x c).next.rest ∧ (f v (x c).next).Yields w rest :=
  Reply.yields_andThen_iff

@[simp] theorem yields_pure_iff {u : β} :
    ((pure u : Reading β) c).Yields v rest ↔ u = v ∧ c.rest = rest := Reply.yields_ok_iff

@[simp] theorem not_yields_fail {e : ParseError} : ¬ ((fail e : Reading β) c).Yields v rest :=
  Reply.not_yields_error

theorem expectAt_cons (place : Position) {kind : TokenKind} (problem : Problem) {t : Token}
    {ts : List Token} (h : c.rest = t :: ts) (hk : t.kind = kind) :
    (expectAt place kind problem c).result = .ok t ∧
      (expectAt place kind problem c).next = { c with rest := ts } := by
  simp [expectAt, Cursor.peek, h, hk, Reply.since, Reply.ok, Cursor.advance]

theorem expectAt_error {place : Position} {kind : TokenKind} {problem : Problem}
    (h : c.peekKind ≠ some kind) :
    expectAt place kind problem c = Reply.error c ⟨problem, place⟩ := by
  unfold expectAt
  cases hr : c.peek with
  | none => rfl
  | some t =>
    have other : t.kind ≠ kind := by simpa [Cursor.peekKind, hr] using h
    simp only [other, if_false]

theorem yields_expectAt_iff {place : Position} {kind : TokenKind} {problem : Problem} {t : Token} :
    (expectAt place kind problem c).Yields t rest ↔ c.rest = t :: rest ∧ t.kind = kind := by
  constructor
  · intro h
    unfold expectAt Cursor.peek at h
    cases hr : c.rest with
    | nil => simp [hr] at h
    | cons u us =>
      by_cases hk : u.kind = kind
      · simp only [hr, List.head?_cons, hk, if_true, Reply.yields_since_iff,
          Reply.yields_ok_iff] at h
        obtain ⟨rfl, rfl⟩ := h
        exact ⟨by simp [Cursor.advance, hr], hk⟩
      · simp [hr, hk] at h
  · rintro ⟨h, hk⟩
    obtain ⟨hv, hn⟩ := expectAt_cons place problem h hk
    exact ⟨hv, by rw [hn]⟩

theorem yields_expect_iff {kind : TokenKind} {problem : Problem} {t : Token} :
    (expect kind problem c).Yields t rest ↔ c.rest = t :: rest ∧ t.kind = kind :=
  yields_expectAt_iff

theorem yields_expectAt_bind_iff {place : Position} {kind : TokenKind} {problem : Problem}
    {f : Token → Reading γ} :
    ((expectAt place kind problem >>= f) c).Yields w rest ↔
      ∃ t ts, c.rest = t :: ts ∧ t.kind = kind ∧ (f t { c with rest := ts }).Yields w rest := by
  rw [yields_bind_iff]
  constructor
  · rintro ⟨t, ht, hf⟩
    obtain ⟨hr, hk⟩ := yields_expectAt_iff.1 ht
    have hn := (expectAt_cons place problem hr hk).2
    exact ⟨t, _, hr, hk, by rw [hn] at hf; rw [hn]; exact hf⟩
  · rintro ⟨t, ts, hr, hk, hf⟩
    obtain ⟨hv, hn⟩ := expectAt_cons place problem hr hk
    exact ⟨t, ⟨hv, rfl⟩, by rw [hn]; exact hf⟩

theorem yields_expect_bind_iff {kind : TokenKind} {problem : Problem} {f : Token → Reading γ} :
    ((expect kind problem >>= f) c).Yields w rest ↔
      ∃ t ts, c.rest = t :: ts ∧ t.kind = kind ∧ (f t { c with rest := ts }).Yields w rest :=
  yields_expectAt_bind_iff

end Reading

/-! ## The operands of premises -/

section Operands

variable {c : Cursor}

theorem readOperand_not (hn : c.peekKind = some .notWord)
    (start : c.advance.peekKind = some .identifier ∨ c.advance.peekKind = some .openParen) :
    readOperand c = ((readOperand c.advance).map .not).since c.advance_follows := by
  rw [readOperand.eq_def c, dif_pos hn]
  rcases start with hs | hs <;> simp only [hs]

theorem readOperand_notRest (hn : c.peekKind = some .notWord)
    (noName : c.advance.peekKind ≠ some .identifier)
    (noParen : c.advance.peekKind ≠ some .openParen) :
    readOperand c = ((readPremise c.advance).map .not).since c.advance_follows := by
  rw [readOperand.eq_def c, dif_pos hn]
  split <;> first | contradiction | rfl

theorem readOperand_group (hp : c.peekKind = some .openParen) :
    readOperand c =
      ((readPremise c.advance).andThen fun inner d _ =>
        (Reading.expect .closeParen .unclosedGroup d).map fun _ => inner).since
          c.advance_follows := by
  have noNot : c.peekKind ≠ some .notWord := by
    rw [hp]
    decide
  rw [readOperand.eq_def c, dif_neg noNot, dif_pos hp]

theorem readOperand_proposition (noNot : c.peekKind ≠ some .notWord)
    (noParen : c.peekKind ≠ some .openParen) :
    readOperand c = (readProposition c).map .is := by
  rw [readOperand.eq_def c, dif_neg noNot, dif_neg noParen]

/-- What holds of the readings of premises and of operands, by the forms that they have. -/
theorem readPremise_induction {P Q : Cursor → Prop}
    (premise : ∀ c, Q c →
      (∀ d : Cursor, d.Follows c → d.peekKind = some .andWord → P d.advance) →
      (∀ d : Cursor, d.Follows c → d.peekKind = some .orWord → P d.advance) → P c)
    (negatedOperand : ∀ c, c.peekKind = some .notWord →
      c.advance.peekKind = some .identifier ∨ c.advance.peekKind = some .openParen →
      Q c.advance → Q c)
    (negatedPremise : ∀ c, c.peekKind = some .notWord →
      c.advance.peekKind ≠ some .identifier → c.advance.peekKind ≠ some .openParen →
      P c.advance → Q c)
    (group : ∀ c, c.peekKind = some .openParen → P c.advance → Q c)
    (proposition : ∀ c, c.peekKind ≠ some .notWord → c.peekKind ≠ some .openParen → Q c) :
    (∀ c, P c) ∧ ∀ c, Q c := by
  apply readPremise.mutual_induct
  case case1 => exact premise
  case case2 => exact fun c notWord _ name => negatedOperand c notWord (.inl name)
  case case3 => exact fun c notWord _ opened => negatedOperand c notWord (.inr opened)
  case case4 => exact fun c notWord _ => negatedPremise c notWord
  case case5 => exact fun c _ opened _ => group c opened
  case case6 => exact proposition

end Operands

/-! ## The terms of definitions -/

section Terms

variable {α : Type} {table : FunctionTable α} {c : Cursor}

theorem readTerms_closeParen (hk : c.peekKind = some .closeParen) :
    readTerms table c = Reply.ok c [] := by
  rw [readTerms]
  simp only [hk]

theorem readTerms_termWord (hk : c.peekKind = some .termWord) :
    readTerms table c =
      (readTerm table c).andThen fun term d _ =>
        if d.peekKind = some .comma then
          ((readTerms table d.advance).map (term :: ·)).since d.advance_follows
        else if d.peekKind = some .closeParen then .ok d [term]
        else .error d ⟨.missingTermSeparator, d.position⟩ := by
  rw [readTerms]
  simp only [hk, dite_eq_ite]

theorem readTerms_stray (noParen : c.peekKind ≠ some .closeParen)
    (noTerm : c.peekKind ≠ some .termWord) :
    readTerms table c = Reply.error c
      ⟨if c.peekKind = none then .unclosedDefinition else .strayInDefinition, c.position⟩ := by
  rw [readTerms]
  split
  · next hk => exact absurd hk noParen
  · next hk => exact absurd hk noTerm
  · next hk => simp only [hk, reduceCtorEq, if_false]
  · next hk => simp only [hk, if_true]

end Terms

end FuzzyInference
