import FuzzyInference.Proofs.Attempts
import FuzzyInference.Proofs.Vocabulary

/-!
# The places of errors

* `ErrorPlace`: where an error can be placed, by the tokens that were used up before it;
* `Reply.Locates`: the error of a reply has such a place, with a lemma for every way to put readings
  together and for every reading;
* `locates_readStatement`: the error of a statement has such a place, and what is left of the
  statement is skipped from where its reading stopped.
-/

namespace FuzzyInference

variable {α β γ : Type}

def Token.Between (t : Token) (s d : Cursor) : Prop :=
  ∃ used, s.rest = used ++ d.rest ∧ t ∈ used

/-- The places of errors of a reading that started at `s` and stopped at `d`: the place of the next
token, or of the last one at the end of the source; the place of a token that was used up; and the
place behind a name that was used up. -/
inductive ErrorPlace (s d : Cursor) : Position → Prop
  | next : ErrorPlace s d d.position
  | used {t : Token} (between : t.Between s d) : ErrorPlace s d t.position
  | behind {t : Token} (between : t.Between s d) (name : t.kind = .identifier) :
      ErrorPlace s d t.placeBehind

theorem Token.Between.of_rest {s c d : Cursor} {t : Token} (later : c.Follows s)
    (h : c.rest = t :: d.rest) : t.Between s d := by
  obtain ⟨before, hs⟩ := later.rest
  refine ⟨before ++ [t], ?_, by simp⟩
  rw [← hs, h]
  simp

theorem Token.Between.first {s d : Cursor} {t first : Token} {ts : List Token}
    (h : t.Between s d) (hs : s.rest = first :: ts) : first.Between s d := by
  obtain ⟨used, hu, ht⟩ := h
  cases used with
  | nil => cases ht
  | cons u us =>
    rw [hs] at hu
    obtain ⟨rfl, -⟩ := List.cons.inj hu
    exact ⟨first :: us, hs.trans hu, by simp⟩

namespace Reply

variable {s c d : Cursor}

/-- If the reply is an error, its place is one that a reading from `s` on can give. -/
def Locates (r : Reply c β) (s : Cursor) : Prop :=
  ∀ e, r.result = .error e → ErrorPlace s r.next e.position

theorem locates_ok {b : β} : (Reply.ok c b).Locates s := nofun

theorem locates_error {e : ParseError} (h : ErrorPlace s c e.position) :
    (Reply.error c e : Reply c β).Locates s := by
  rintro _ ⟨⟩
  exact h

theorem Locates.since {r : Reply d β} (h : r.Locates s) (later : d.Follows c) :
    (r.since later).Locates s := h

theorem Locates.map {r : Reply c β} (h : r.Locates s) (f : β → γ) : (r.map f).Locates s := by
  intro e he
  apply h e
  cases hr : r.result with
  | ok b => simp [Reply.map, hr, Except.map] at he
  | error e' => simpa [Reply.map, hr, Except.map] using he

theorem Locates.andThen {r : Reply c β} {f : β → (d : Cursor) → d.Follows c → Reply d γ}
    (h : r.Locates s) (behind : ∀ b, r.result = .ok b → (f b r.next r.forward).Locates s) :
    (r.andThen f).Locates s := by
  cases hr : r.result with
  | ok b =>
    rw [andThen_ok hr]
    exact (behind b hr).since _
  | error e =>
    rw [andThen_error hr]
    rintro _ ⟨⟩
    exact h e hr

end Reply

namespace Reading

variable {s c : Cursor} {kind : TokenKind} {problem : Problem}

theorem locates_bind {x : Reading β} {f : β → Reading γ} (later : c.Follows s)
    (h : (x c).Locates s) (behind : ∀ b d, d.Follows s → (f b d).Locates s) :
    ((x >>= f) c).Locates s :=
  h.andThen fun b _ => behind b _ ((x c).forward.trans later)

theorem locates_expectAt {place : Position} (h : ErrorPlace s c place) :
    (expectAt place kind problem c).Locates s := by
  by_cases hk : c.peekKind = some kind
  · obtain ⟨t, ts, hc, ht⟩ := Cursor.peekKind_eq_some_iff.1 hk
    intro e he
    rw [(expectAt_cons place problem hc ht).1] at he
    cases he
  · rw [expectAt_error hk]
    exact Reply.locates_error h

theorem locates_expect : (expect kind problem c).Locates s := locates_expectAt .next

/-- Behind an expected token, reading may place its errors by that token too. -/
theorem locates_expectAt_bind {place : Position} {f : Token → Reading γ} (later : c.Follows s)
    (h : ErrorPlace s c place)
    (behind : ∀ t d, d.Follows s → t.Between s d → t.kind = kind → (f t d).Locates s) :
    ((expectAt place kind problem >>= f) c).Locates s := by
  apply (locates_expectAt h).andThen
  intro t ht
  obtain ⟨hc, kind⟩ := yields_expectAt_iff.1 (Reply.yields_next ht)
  exact behind t _ ((expectAt _ _ _ c).forward.trans later) (.of_rest later hc) kind

theorem locates_expect_bind {f : Token → Reading γ} (later : c.Follows s)
    (behind : ∀ t d, d.Follows s → t.Between s d → t.kind = kind → (f t d).Locates s) :
    ((expect kind problem >>= f) c).Locates s :=
  locates_expectAt_bind later .next behind

/-! ## Numbers -/

variable [Scalar α]

theorem locates_number (later : c.Follows s) : (number problem c : Reply c α).Locates s := by
  unfold number
  apply locates_expect_bind later
  intro t d _ between _
  cases Numeral.read? t.text with
  | some numeral => exact Reply.locates_ok
  | none => exact Reply.locates_error (.used between)

theorem locates_numbers (function : String) (count : Nat) (later : c.Follows s) :
    (numbers function count c : Reply c (Vector α count)).Locates s := by
  induction count with
  | zero => exact Reply.locates_ok
  | succ count ih =>
    unfold numbers
    apply locates_bind later ih
    intro before d later
    have pushed (e : Cursor) (later : e.Follows s) :
        ((do let x ← number (.missingArgument function count); pure (before.push x) :
          Reading (Vector α (count + 1))) e).Locates s := by
      apply locates_bind later (locates_number later)
      intro x _ _
      exact Reply.locates_ok
    split
    · apply locates_expect_bind later
      intro _ e later _ _
      exact pushed e later
    · exact pushed d later

theorem locates_arguments (function : String) (count : Nat) (later : c.Follows s) :
    (arguments function count c : Reply c (Vector α count)).Locates s := by
  unfold arguments
  apply locates_expect_bind later
  intro _ d later _ _
  apply locates_bind later (locates_numbers function count later)
  intro xs e later
  apply locates_expect_bind later
  intro _ _ _ _ _
  exact Reply.locates_ok

end Reading

/-! ## Fuzzy sets -/

section

variable [Scalar α] {s c : Cursor}

/-- The reader of a function places its errors if the reading of its operand does. -/
theorem BuiltIn.locates_reader (f : BuiltIn) (later : c.Follows s)
    {operand : (d : Cursor) → d.Follows c → Reply d (FuzzySet α)}
    (inside : ∀ d h, (operand d h).Locates s) : (f.reader c operand).Locates s := by
  cases f with
  | linear => exact (Reading.locates_arguments _ 2 later).map _
  | triangular => exact (Reading.locates_arguments _ 3 later).map _
  | trapezoid => exact (Reading.locates_arguments _ 4 later).map _
  | inverted =>
    unfold reader readInverted
    apply Reading.locates_expect.andThen
    intro _ _
    apply (inside _ _).andThen
    intro m _
    exact Reading.locates_expect.map _

theorem locates_readFuzzySet (later : c.Follows s) :
    (readFuzzySet .standard c : Reply c (FuzzySet α)).Locates s := by
  induction hl : c.rest.length using Nat.strongRecOn generalizing c with
  | ind n ih =>
    cases hc : c.rest with
    | nil =>
      rw [readFuzzySet_nil hc]
      exact Reply.locates_error .next
    | cons name ts =>
      have between : name.Between s c.advance := .of_rest later (by simp [Cursor.advance, hc])
      have behind := c.advance_follows.trans later
      cases found : (FunctionTable.standard : FunctionTable α).find? name.text with
      | none =>
        rw [readFuzzySet_unknown hc found]
        exact (Reply.locates_error (.used between)).since _
      | some reader =>
        rw [readFuzzySet_known hc found]
        obtain ⟨f, -, rfl⟩ := FunctionTable.find?_standard_iff.1 found
        apply Reply.Locates.since
        apply f.locates_reader behind
        intro d inside
        have shorter : d.rest.length < n := hl ▸ inside.length_lt (by simp [hc])
        exact ih _ shorter (inside.trans behind) rfl

end

/-! ## Definitions -/

section

variable [Scalar α] {s c : Cursor}

theorem locates_readTerm (later : c.Follows s) :
    (readTerm .standard c : Reply c (Term α)).Locates s := by
  unfold readTerm
  apply Reading.locates_expect_bind later
  intro _ d later _ _
  apply Reading.locates_expect_bind later
  intro name e later _ _
  apply Reading.locates_bind later (locates_readFuzzySet later)
  intro m _ _
  exact Reply.locates_ok

theorem locates_readTerms (later : c.Follows s) :
    (readTerms .standard c : Reply c (List (Term α))).Locates s := by
  induction hl : c.rest.length using Nat.strongRecOn generalizing c with
  | ind n ih =>
    by_cases hp : c.peekKind = some .closeParen
    · rw [readTerms_closeParen hp]
      exact Reply.locates_ok
    · by_cases ht : c.peekKind = some .termWord
      · rw [readTerms_termWord ht]
        apply (locates_readTerm later).andThen
        intro term _
        have forward := (readTerm (α := α) .standard c).forward
        split
        · next comma =>
          have behind := (Cursor.advance_follows _).trans (forward.trans later)
          exact (ih _ (hl ▸ forward.length_advance_lt comma) behind rfl).map _
        · split
          · exact Reply.locates_ok
          · exact Reply.locates_error .next
      · rw [readTerms_stray hp ht]
        exact Reply.locates_error .next

/-- What is wrong with a definition as a whole is placed at its first token. -/
theorem locates_readDefinition {first : Token} {ts : List Token} (hs : s.rest = first :: ts)
    (later : c.Follows s) :
    (readDefinition .standard first.position c : Reply c (Variable α)).Locates s := by
  unfold readDefinition
  apply Reading.locates_expect_bind later
  intro name _ later _ _
  apply Reading.locates_expect_bind later
  intro _ _ later _ _
  apply Reading.locates_bind later (locates_readTerms later)
  intro terms _ later
  apply Reading.locates_expect_bind later
  intro _ _ later _ _
  apply Reading.locates_expect_bind later
  intro _ _ _ between _
  cases Variable.ofTerms name.text terms with
  | ok v => exact Reply.locates_ok
  | error duplicate => exact Reply.locates_error (.used (between.first hs))

end

/-! ## Rules -/

section

variable {s c : Cursor}

/-- A missing `IS` is placed behind the name that was used up. -/
theorem locates_readProposition (later : c.Follows s) : (readProposition c).Locates s := by
  unfold readProposition
  apply Reading.locates_expect_bind later
  intro name _ later between identifier
  apply Reading.locates_expectAt_bind later (.behind between identifier)
  intro _ _ later _ _
  apply Reading.locates_expect_bind later
  intro term _ _ _ _
  exact Reply.locates_ok

/-- Premises and operands are read with errors in their places, by induction along both readings. -/
theorem locates_readPremise_readOperand :
    (∀ c : Cursor, c.Follows s → (readPremise c).Locates s) ∧
      ∀ c : Cursor, c.Follows s → (readOperand c).Locates s := by
  have behind {c : Cursor} (later : c.Follows s) := c.advance_follows.trans later
  apply readPremise_induction
  case premise =>
    intro c operand behindAnd behindOr later
    rw [readPremise]
    apply (operand later).andThen
    intro left _
    have forward := (readOperand c).forward
    split
    · next andWord => exact (behindAnd _ forward andWord (behind (forward.trans later))).map _
    · split
      · next orWord => exact (behindOr _ forward orWord (behind (forward.trans later))).map _
      · exact Reply.locates_ok
  case negatedOperand =>
    intro c notWord start operand later
    rw [readOperand_not notWord start]
    exact (operand (behind later)).map _
  case negatedPremise =>
    intro c notWord noName noParen premise later
    rw [readOperand_notRest notWord noName noParen]
    exact (premise (behind later)).map _
  case group =>
    intro c openParen premise later
    rw [readOperand_group openParen]
    apply Reply.Locates.since
    apply (premise (behind later)).andThen
    intro inner _
    exact Reading.locates_expect.map _
  case proposition =>
    intro c noNot noParen later
    rw [readOperand_proposition noNot noParen]
    exact (locates_readProposition later).map _

theorem locates_readRule (later : c.Follows s) : (readRule c).Locates s := by
  unfold readRule
  apply Reading.locates_bind later (locates_readPremise_readOperand.1 c later)
  intro premise _ later
  apply Reading.locates_expect_bind later
  intro _ _ later _ _
  apply Reading.locates_bind later (locates_readProposition later)
  intro conclusion _ _
  exact Reply.locates_ok

end

/-! ## Statements -/

section

variable {s c : Cursor} {start : Position} {e : ParseError}

theorem start_readStatement (table : FunctionTable α) (first : Token) (c : Cursor) :
    (readStatement table first c).1.start = first.position := by
  by_cases hd : first.kind = .defineWord
  · rw [readStatement_defineWord hd]
    unfold finishDefinition
    split <;> rfl
  · by_cases hi : first.kind = .ifWord
    · rw [readStatement_ifWord hi]
      unfold finishRule
      split
      · split <;> rfl
      · rfl
    · rw [readStatement_other hd hi]

/-- The error has a place that reading from `s` on can give, and what is left where that reading
stopped is skipped. -/
def LocatesAttempt (read : Attempt α × { d : Cursor // d.Follows c }) (s : Cursor) : Prop :=
  ∀ e, read.1.error = some e →
    ∃ d : Cursor, d.Follows s ∧ ErrorPlace s d e.position ∧ read.2.1.rest = skipStatement d.rest

theorem locates_finishDefinition {reply : Reply c (Variable α)} (later : c.Follows s)
    (h : reply.Locates s) : LocatesAttempt (finishDefinition start reply) s := by
  intro e error
  cases hr : reply.result with
  | ok v => simp [finishDefinition, hr] at error
  | error e' =>
    simp only [finishDefinition, hr, Option.some.injEq] at error ⊢
    subst error
    exact ⟨reply.next, reply.forward.trans later, h e' hr, rfl⟩

/-- A missing semicolon is placed where the next token is. -/
theorem locates_finishRule {reply : Reply c Rule} (later : c.Follows s) (h : reply.Locates s) :
    LocatesAttempt (α := α) (finishRule start reply) s := by
  intro e error
  have behind := reply.forward.trans later
  cases hr : reply.result with
  | ok rule =>
    by_cases semicolon : reply.next.peekKind = some .semicolon
    · simp [finishRule, hr, semicolon] at error
    · simp only [finishRule, hr, if_neg semicolon, Option.some.injEq] at error ⊢
      subst error
      exact ⟨reply.next, behind, .next, rfl⟩
  | error e' =>
    simp only [finishRule, hr, Option.some.injEq] at error ⊢
    subst error
    exact ⟨reply.next, behind, h e' hr, rfl⟩

/-- A statement that is wrong from its first word on is skipped from that word on. -/
theorem skipStatement_other {first : Token} {after : List Token}
    (noDefine : first.kind ≠ .defineWord) (noIf : first.kind ≠ .ifWord) :
    skipStatement (first :: after) =
      if first.kind = .semicolon then after else skipStatement after := by
  rw [skipStatement]
  split
  · next h => rw [if_pos h]
  · next h => exact absurd h noIf
  · next h => exact absurd h noDefine
  · next h _ _ => rw [if_neg h]

theorem locates_readStatement [Scalar α] {first : Token} {after : List Token}
    (hs : s.rest = first :: after) :
    LocatesAttempt (readStatement (α := α) .standard first s.advance) s := by
  have later := s.advance_follows
  by_cases defineWord : first.kind = .defineWord
  · rw [readStatement_defineWord defineWord]
    exact locates_finishDefinition later (locates_readDefinition hs later)
  · by_cases ifWord : first.kind = .ifWord
    · rw [readStatement_ifWord ifWord]
      exact locates_finishRule later (locates_readRule later)
    · rw [readStatement_other defineWord ifWord]
      rintro _ ⟨⟩
      have place : s.position = first.position := by simp [Cursor.position, Cursor.peek, hs]
      have behind : s.advance.rest = after := by simp [Cursor.advance, hs]
      refine ⟨s, .refl s, place ▸ .next, ?_⟩
      rw [hs, skipStatement_other defineWord ifWord]
      split
      · exact behind
      · exact congrArg skipStatement behind

end

end FuzzyInference
