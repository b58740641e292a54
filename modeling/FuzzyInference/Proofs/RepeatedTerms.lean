import FuzzyInference.Proofs.ErrorPlaces
import FuzzyInference.Proofs.Joining

/-!
# Definitions that repeat a term

A definition is read up to its semicolon before it turns out that two of its terms share a name.

* `readDefinition_repeated`: the definition is refused then, and all of it is used up;
* `attempts_repeated`: the recovery passes over what stands up to the next statement all the same;
* `attempts_of_other`: what is passed over would have been one attempt, and an error;
* `repeated_terms_hide_error`: so nothing behind the definition is lost but that error.
-/

namespace FuzzyInference

open Grammar

variable {α β γ : Type}

/-! ## Refusals -/

/-- The reply is the error `e`, and the tokens `rest` are left. -/
def Reply.Refuses {c : Cursor} (r : Reply c β) (e : ParseError) (rest : List Token) : Prop :=
  r.result = .error e ∧ r.next.rest = rest

namespace Reading

variable {c : Cursor} {e : ParseError} {rest : List Token}

theorem refuses_bind {x : Reading β} {f : β → Reading γ} {v : β} (h : (x c).result = .ok v)
    (behind : (f v (x c).next).Refuses e rest) : ((x >>= f) c).Refuses e rest := by
  have bound : (x >>= f) c = (f v (x c).next).since (x c).forward := Reply.andThen_ok h
  rw [bound]
  exact behind

theorem refuses_expect_bind {kind : TokenKind} {problem : Problem} {f : Token → Reading γ}
    {t : Token} {ts : List Token} (hc : c.rest = t :: ts) (hk : t.kind = kind)
    (behind : (f t { c with rest := ts }).Refuses e rest) :
    ((expect kind problem >>= f) c).Refuses e rest := by
  obtain ⟨reads, next⟩ : (expect kind problem c).result = .ok t ∧
      (expect kind problem c).next = { c with rest := ts } :=
    expectAt_cons c.position problem hc hk
  apply refuses_bind reads
  rw [next]
  exact behind

end Reading

section

variable [Scalar α] {name duplicate : String} {terms : List (Term α)}

/-- Two terms share a name, so the definition is refused as a whole, behind its semicolon. -/
theorem readDefinition_repeated {start : Position} {c : Cursor} {mark : String}
    {used after : List Token} {semicolon : Token}
    (body : DerivesBody (mark :: words used) (.definition name terms))
    (repeated : firstRepeated? [] (terms.map (·.name)) = some duplicate)
    (hm : semicolon.kind = .semicolon) (hc : c.rest = used ++ semicolon :: after) :
    (readDefinition (α := α) .standard start c).Refuses
      ⟨.invalidDefinition ⟨name, duplicate⟩, start⟩ after := by
  generalize hw : mark :: words used = ws at body
  cases body with
  | definition _ hn hf derived hl =>
    obtain ⟨named, _, rfl, rfl, h₁⟩ := words_eq_cons (List.cons.inj hw).2
    obtain ⟨first, _, rfl, rfl, h₂⟩ := words_eq_cons h₁
    obtain ⟨us, last, rfl, rfl, rfl⟩ := words_eq_concat h₂
    let d : Cursor := { c with rest := us ++ last :: semicolon :: after }
    obtain ⟨read, left⟩ : (readTerms .standard d).Yields terms (last :: semicolon :: after) :=
      yields_readTerms_iff.2 ⟨⟨us, rfl, derived⟩, congrArg some hl⟩
    unfold readDefinition
    apply Reading.refuses_expect_bind (by simpa using hc) hn
    apply Reading.refuses_expect_bind rfl hf
    apply Reading.refuses_bind read
    apply Reading.refuses_expect_bind left hl
    apply Reading.refuses_expect_bind rfl hm
    rw [Variable.ofTerms_eq_error repeated]
    exact ⟨rfl, rfl⟩

/-! ## What is passed over -/

/-- The attempts depend on the tokens and on the place of the last one. -/
theorem attempts_congr {c d : Cursor} (rest : d.rest = c.rest)
    (ends : c.rest ≠ [] → d.endPosition = c.endPosition) :
    (readStatements (α := α) .standard d).1 = (readStatements .standard c).1 := by
  by_cases ended : c.rest = []
  · rw [readStatements_nil ended, readStatements_nil (rest.trans ended)]
  · have tokens : d.rest = c.rest.map (·.below 0) := rest.trans (List.map_id _).symm
    rw [readStatements_below tokens (ends ended), map_below_zero]

omit [Scalar α] in
theorem next_finishDefinition {start : Position} {c : Cursor} {reply : Reply c (Variable α)}
    {e : ParseError} (h : reply.result = .error e) :
    (finishDefinition start reply).2.1 = reply.next.recover := by
  simp only [finishDefinition, h]

theorem endPosition_append (before : List Token) {after : List Token} (more : after ≠ []) :
    (Cursor.ofTokens (before ++ after)).endPosition = (Cursor.ofTokens after).endPosition := by
  unfold Cursor.ofTokens
  rw [List.getLast?_append_of_ne_nil _ more]

/-- Nothing is left of a definition that is refused, and yet what stands up to the next statement is
passed over. -/
theorem attempts_repeated {first semicolon : Token} {used after : List Token}
    (body : DerivesBody (words (first :: used)) (.definition name terms))
    (repeated : firstRepeated? [] (terms.map (·.name)) = some duplicate)
    (hm : semicolon.kind = .semicolon) :
    (parseTokens .standard (first :: (used ++ semicolon :: after)) : Parsing α).attempts =
      ⟨first.position, none, some ⟨.invalidDefinition ⟨name, duplicate⟩, first.position⟩⟩ ::
        (readStatements .standard (Cursor.ofTokens after).recover).1 := by
  obtain ⟨mark, us, hw, ⟨defineWord, -⟩ | ⟨-, r, rule⟩⟩ := body.exists_mark
  case inr => cases rule
  obtain ⟨rfl, -⟩ := List.cons.inj hw
  let c : Cursor := (Cursor.ofTokens (first :: (used ++ semicolon :: after))).advance
  obtain ⟨error, left⟩ : (readDefinition (α := α) .standard first.position c).Refuses _ after :=
    readDefinition_repeated body repeated hm rfl
  have forward := (readDefinition (α := α) .standard first.position c).forward
  rw [attempts_parseTokens, readStatements_cons rfl, readStatement_defineWord defineWord,
    finishDefinition_error error, next_finishDefinition error]
  apply congrArg (List.cons _)
  apply attempts_congr
  · exact congrArg skipStatement left
  · intro more
    have more : after ≠ [] := by
      rintro rfl
      exact more rfl
    have same := endPosition_append (first :: (used ++ [semicolon])) more
    rw [List.cons_append, List.append_assoc] at same
    exact forward.endPosition.trans same

theorem skipStatement_of_starts {tokens : List Token}
    (starts : tokens = [] ∨ StartsStatement tokens) : skipStatement tokens = tokens := by
  rcases starts with rfl | starts
  · rfl
  · cases tokens with
    | nil => rfl
    | cons t ts => rcases starts with h | h <;> simp [skipStatement, h]

theorem attempts_of_starts {after : List Token} (starts : after = [] ∨ StartsStatement after) :
    (parseTokens .standard after : Parsing α).attempts =
      (readStatements .standard (Cursor.ofTokens after).recover).1 := by
  rw [attempts_parseTokens]
  exact attempts_congr (skipStatement_of_starts starts).symm fun _ => rfl

/-- Tokens that start no statement are a wrong attempt at one, up to the next statement. -/
theorem attempts_of_other {after : List Token} (more : after ≠ [])
    (stray : ¬ StartsStatement after) :
    ∃ start e, (parseTokens .standard after : Parsing α).attempts =
      ⟨start, none, some e⟩ :: (readStatements .standard (Cursor.ofTokens after).recover).1 := by
  obtain ⟨first, others, rfl⟩ := List.exists_cons_of_ne_nil more
  obtain ⟨noIf, noDefine⟩ := not_or.1 stray
  rw [attempts_parseTokens, readStatements_cons rfl, readStatement_other noDefine noIf]
  refine ⟨_, _, congrArg (List.cons _) (attempts_congr ?_ ?_)⟩
  · change _ = skipStatement (first :: others)
    rw [skipStatement_other noDefine noIf]
    split <;> rfl
  · intro _
    split <;> rfl

/-- What is left of the errors when the first statement that is none is passed over. -/
def passedOver (after : List Token) (errors : List ParseError) : List ParseError :=
  if after = [] ∨ StartsStatement after then errors else errors.tail

/-- Passing over tokens that start no statement costs no rule and no definition, and one error. -/
theorem recover_ofTokens (after : List Token) :
    let read := (readStatements (α := α) .standard (Cursor.ofTokens after).recover).1
    let parsed : Parsing α := parseTokens .standard after
    read.filterMap (·.statement) = parsed.statements ∧
      read.filterMap (·.error) = passedOver after parsed.errors ∧
      (parsed.errors = passedOver after parsed.errors ↔ after = [] ∨ StartsStatement after) := by
  intro read parsed
  unfold passedOver
  by_cases starts : after = [] ∨ StartsStatement after
  · have attempts : parsed.attempts = read := attempts_of_starts starts
    rw [if_pos starts]
    refine ⟨?_, ?_, iff_of_true rfl starts⟩
    · rw [Parsing.statements, attempts]
    · rw [Parsing.errors, attempts]
  · obtain ⟨more, stray⟩ := not_or.1 starts
    obtain ⟨start, e, attempts⟩ := attempts_of_other (α := α) more stray
    have attempts : parsed.attempts = ⟨start, none, some e⟩ :: read := attempts
    have errors : parsed.errors = e :: read.filterMap (·.error) := by
      rw [Parsing.errors, attempts]
      rfl
    rw [if_neg starts, errors, List.tail_cons]
    refine ⟨?_, rfl, iff_of_false (List.cons_ne_self e _) starts⟩
    rw [Parsing.statements, attempts]
    rfl

/-- The error of the definition comes first. -/
theorem errors_repeated {first semicolon : Token} {used : List Token}
    (body : DerivesBody (words (first :: used)) (.definition name terms))
    (repeated : firstRepeated? [] (terms.map (·.name)) = some duplicate)
    (hm : semicolon.kind = .semicolon) (after : List Token) :
    (parseTokens .standard (first :: (used ++ semicolon :: after)) : Parsing α).errors =
      ⟨.invalidDefinition ⟨name, duplicate⟩, first.position⟩ ::
        passedOver after (parseTokens .standard after : Parsing α).errors := by
  obtain ⟨-, errors, -⟩ := recover_ofTokens (α := α) after
  rw [← errors, Parsing.errors, attempts_repeated body repeated hm]
  rfl

theorem document_repeated {first semicolon : Token} {used : List Token}
    (body : DerivesBody (words (first :: used)) (.definition name terms))
    (repeated : firstRepeated? [] (terms.map (·.name)) = some duplicate)
    (hm : semicolon.kind = .semicolon) (after : List Token) :
    (parseTokens .standard (first :: (used ++ semicolon :: after)) : Parsing α).document =
      (parseTokens .standard after).document := by
  obtain ⟨statements, -⟩ := recover_ofTokens (α := α) after
  have same :
      (parseTokens .standard (first :: (used ++ semicolon :: after)) : Parsing α).statements =
        (parseTokens .standard after : Parsing α).statements := by
    rw [← statements, Parsing.statements, attempts_repeated body repeated hm]
    rfl
  rw [Parsing.document, same, Parsing.document]

omit [Scalar α] in
theorem exists_repeated (h : ¬ (terms.map (·.name)).Nodup) :
    ∃ duplicate, firstRepeated? [] (terms.map (·.name)) = some duplicate := by
  cases repeated : firstRepeated? [] (terms.map (·.name)) with
  | none => exact absurd (firstRepeated?_eq_none_iff.1 repeated).1 h
  | some duplicate => exact ⟨duplicate, rfl⟩

/-- A definition that is complete, and refused only because two of its terms share a name, takes no
rule and no definition away from what stands behind it. Its error comes first, and those of what
stands behind follow, unless some other word than `IF` or `DEFINE` stands right behind it. In that
case the recovery passes over the statement that this word starts, and its error is lost. -/
theorem repeated_terms_hide_error {used : List Token} {semicolon : Token} {name : String}
    {terms : List (Term α)} (body : DerivesBody (words used) (.definition name terms))
    (repeated : ¬ (terms.map (·.name)).Nodup) (hm : semicolon.kind = .semicolon) :
    ∃ e : ParseError, used.head?.map (·.position) = some e.position ∧
      (∃ duplicate, firstRepeated? [] (terms.map (·.name)) = some duplicate ∧
        e.problem = .invalidDefinition ⟨name, duplicate⟩) ∧
      ∀ after,
        let whole : Parsing α := parseTokens .standard (used ++ semicolon :: after)
        let behind : Parsing α := parseTokens .standard after
        whole.document = behind.document ∧
        whole.errors = e :: passedOver after behind.errors ∧
        (whole.errors = e :: behind.errors ↔ after = [] ∨ StartsStatement after) := by
  obtain ⟨duplicate, again⟩ := exists_repeated repeated
  obtain ⟨mark, us, hw, -⟩ := body.exists_mark
  obtain ⟨first, others, rfl, -, -⟩ := words_eq_cons hw
  let e : ParseError := ⟨.invalidDefinition ⟨name, duplicate⟩, first.position⟩
  refine ⟨e, rfl, ⟨duplicate, again, rfl⟩, ?_⟩
  intro after whole behind
  have errors : whole.errors = e :: passedOver after behind.errors :=
    errors_repeated body again hm after
  obtain ⟨-, -, kept⟩ := recover_ofTokens (α := α) after
  refine ⟨document_repeated body again hm after, errors, ?_⟩
  rw [errors, ← kept]
  constructor
  · intro same
    exact (List.cons.inj same).2.symm
  · intro same
    exact congrArg (List.cons e) same.symm

def repeatedTermWords : List String :=
  ["DEFINE", "v", "(", "TERM", "a", "LINEAR", "(", "0", ",", "1", ")", ",",
    "TERM", "a", "LINEAR", "(", "0", ",", "1", ")", ")"]

theorem exists_derivesBody_repeatedTerm :
    ∃ t : Term α, DerivesBody repeatedTermWords (.definition "v" [t, t]) := by
  obtain ⟨zero, hz⟩ := Option.isSome_iff_exists.1
    (show (Numeral.read? "0").isSome = true by decide +kernel)
  obtain ⟨one, ho⟩ := Option.isSome_iff_exists.1
    (show (Numeral.read? "1").isSome = true by decide +kernel)
  have first : DerivesNumber (α := α) "0" _ := .mk (by decide +kernel) hz
  have second : DerivesNumber (α := α) "1" _ := .mk (by decide +kernel) ho
  have numbers := (DerivesNumbers.first first).comma (by simp) second
  have term : DerivesTerm ["TERM", "a", "LINEAR", "(", "0", ",", "1", ")"] _ :=
    .termWord (by decide +kernel) (.call (by decide +kernel) (.parens numbers) (.linear _ _))
  exact ⟨_, .define (by decide +kernel) (.comma term (.last term))⟩

theorem repeated_terms_hide_error_same_term :
    ∃ t : Term Float,
      DerivesBody (words (repeatedTermWords.map (⟨·, .start⟩))) (.definition "v" [t, t]) ∧
      ¬ ([t, t].map (·.name)).Nodup ∧ (⟨";", .start⟩ : Token).kind = .semicolon ∧
      ∃ e : ParseError, ∀ after,
        (parseTokens .standard (repeatedTermWords.map (⟨·, .start⟩) ++ ⟨";", .start⟩ :: after) :
            Parsing Float).errors =
          e :: passedOver after (parseTokens .standard after : Parsing Float).errors := by
  obtain ⟨t, body⟩ := exists_derivesBody_repeatedTerm (α := Float)
  have body : DerivesBody (words (repeatedTermWords.map (⟨·, .start⟩)))
      (.definition "v" [t, t]) := body
  have repeated : ¬ ([t, t].map (·.name)).Nodup := by simp
  have semicolon : (⟨";", .start⟩ : Token).kind = .semicolon := by decide +kernel
  obtain ⟨e, -, -, all⟩ := repeated_terms_hide_error body repeated semicolon
  exact ⟨t, body, repeated, semicolon, e, fun after => (all after).2.1⟩

/-- The error about `oops` is lost. -/
theorem errors_behind_repeated_terms_ne :
    (∃ t : Term Float, DerivesBody repeatedTermWords (.definition "v" [t, t])) ∧
      words (tokenize "DEFINE v (TERM a LINEAR(0, 1), TERM a LINEAR(0, 1));") =
        repeatedTermWords ++ [";"] ∧
      ∀ e, (parseTokens .standard
          (tokenize "DEFINE v (TERM a LINEAR(0, 1), TERM a LINEAR(0, 1));" ++ tokenize "oops ;") :
            Parsing Float).errors ≠
        e :: (parseTokens .standard (tokenize "oops ;") : Parsing Float).errors := by
  have definition : words (tokenize "DEFINE v (TERM a LINEAR(0, 1), TERM a LINEAR(0, 1));") =
      repeatedTermWords ++ [";"] := by decide +kernel
  have stray : ¬ (tokenize "oops ;" = [] ∨ StartsStatement (tokenize "oops ;")) := by decide +kernel
  obtain ⟨t, body⟩ := exists_derivesBody_repeatedTerm (α := Float)
  refine ⟨⟨t, body⟩, definition, ?_⟩
  intro e same
  obtain ⟨used, semicolon, hu, hw, hm⟩ := words_eq_concat definition
  obtain ⟨first, others, rfl, -, -⟩ := words_eq_cons hw
  have repeated : firstRepeated? [] ([t, t].map (·.name)) = some t.name := by simp [firstRepeated?]
  have semicolon : semicolon.kind = .semicolon := by
    rw [Token.kind, hm]
    decide +kernel
  rw [← hw] at body
  rw [hu, List.append_assoc, List.singleton_append, List.cons_append,
    errors_repeated body repeated semicolon] at same
  obtain ⟨-, -, kept⟩ := recover_ofTokens (α := Float) (tokenize "oops ;")
  exact stray (kept.1 (List.cons.inj same).2.symm)

end

end FuzzyInference
