import FuzzyInference.Proofs.Attempts
import FuzzyInference.Proofs.Vocabulary
import Mathlib.Logic.Relation

/-!
# Reading moves forward

Reading a source uses up all of its tokens, each of them once, however malformed it is.

* `Call`: one of the readings that can come up inside themselves, at the cursor it starts from;
* `Call.Makes`: which calls a call makes directly. `Readings.agreesAt_layer` says that these are all
  of them: readings that differ at other cursors only do not change what a call replies;
* `Call.beyond_of_nested`: inside another call of the same reading, a call starts at a later token;
* `Call.within_of_nested`: a call stays between the two ends of any call that it is nested in, and
  `Makes.apart`: two calls that one call makes do not overlap;
* `Rounds`: the statements of a source one after the other, and the tokens that each uses up;
* `tokens_used_up_once`: the rounds cut the tokens of a source into pieces, none of them empty, and
  the last one ends at the end of the source.

What a function reads is known for the built-in functions only, so the table is one of these, under
any names.
-/

namespace FuzzyInference

open Relation

/-! ## Replies one behind the other -/

/-- `d` stands behind `c`, with a token between them at least. -/
def Cursor.Beyond (d c : Cursor) : Prop := ∃ used, used ≠ [] ∧ c.rest = used ++ d.rest

theorem Cursor.Follows.beyond {c d : Cursor} (h : d.Follows c)
    (shorter : d.rest.length < c.rest.length) : d.Beyond c := by
  obtain ⟨used, hc⟩ := h.rest
  refine ⟨used, ?_, hc.symm⟩
  rintro rfl
  simp [← hc] at shorter

namespace Reply

variable {β γ : Type} {c : Cursor}

theorem next_andThen_follows (r : Reply c β) (f : β → (d : Cursor) → d.Follows c → Reply d γ) :
    (r.andThen f).next.Follows r.next := by
  unfold andThen
  split
  · next b _ => exact (f b r.next r.forward).forward
  · exact .refl _

theorem andThen_congr {r : Reply c β} {f g : β → (d : Cursor) → d.Follows c → Reply d γ}
    (h : ∀ b, r.result = .ok b → f b r.next r.forward = g b r.next r.forward) :
    r.andThen f = r.andThen g := by
  cases hr : r.result with
  | ok b => rw [andThen_ok hr, andThen_ok hr, h b hr]
  | error e => rw [andThen_error hr, andThen_error hr]

end Reply

namespace Reading

variable {c : Cursor} {kind : TokenKind} {problem : Problem} {t : Token}

theorem expect_of_peekKind (problem : Problem) (h : c.peekKind = some kind) :
    ∃ t, (expect kind problem c).result = .ok t ∧ (expect kind problem c).next = c.advance := by
  obtain ⟨t, ts, hc, hk⟩ := Cursor.peekKind_eq_some_iff.1 h
  have read := expectAt_cons c.position problem hc hk
  exact ⟨t, read.1, by rw [Cursor.advance_eq hc]; exact read.2⟩

theorem expect_ok (h : (expect kind problem c).result = .ok t) :
    c.peekKind = some kind ∧ (expect kind problem c).next = c.advance := by
  obtain ⟨hc, hk⟩ := yields_expect_iff.1 (Reply.yields_next h)
  have present : c.peekKind = some kind := Cursor.peekKind_eq_some_iff.2 ⟨t, _, hc, hk⟩
  obtain ⟨_, -, next⟩ := expect_of_peekKind problem present
  exact ⟨present, next⟩

theorem next_bind_follows {β γ : Type} (x : Reading β) (f : β → Reading γ) (c : Cursor) :
    ((x >>= f) c).next.Follows (x c).next :=
  Reply.next_andThen_follows _ _

theorem expect_andThen_congr {γ : Type}
    {f g : Token → (d : Cursor) → d.Follows c → Reply d γ}
    (h : ∀ t, c.peekKind = some kind →
      f t c.advance c.advance_follows = g t c.advance c.advance_follows) :
    (expect kind problem c).andThen f = (expect kind problem c).andThen g := by
  refine Reply.andThen_congr fun t ht => ?_
  obtain ⟨present, hn⟩ := expect_ok ht
  have reply : ∀ d (later : d.Follows c), d = c.advance → f t d later = g t d later := by
    rintro _ _ rfl
    exact h t present
  exact reply _ _ hn

theorem next_expect_andThen_follows {γ : Type} {f : Token → (d : Cursor) → d.Follows c → Reply d γ}
    {e : Cursor} (h : c.peekKind = some kind)
    (behind : ∀ t, (f t c.advance c.advance_follows).next.Follows e) :
    ((expect kind problem c).andThen f).next.Follows e := by
  obtain ⟨t, ht, hn⟩ := expect_of_peekKind problem h
  have reply : ∀ d (later : d.Follows c), d = c.advance → (f t d later).next.Follows e := by
    rintro _ _ rfl
    exact behind t
  rw [Reply.andThen_ok ht]
  exact reply _ _ hn

end Reading

/-! ## Calls -/

/-- A reading that can come up inside itself. -/
inductive Routine where
  | premise
  | operand
  | terms
  | fuzzySet

structure Call where
  routine : Routine
  start : Cursor

namespace Call

variable {α : Type} (table : FunctionTable α) {a b d : Call}

/-- The cursor behind the last token that the call uses up. -/
def finish : Call → Cursor
  | ⟨.premise, c⟩ => (readPremise c).next
  | ⟨.operand, c⟩ => (readOperand c).next
  | ⟨.terms, c⟩ => (readTerms table c).next
  | ⟨.fuzzySet, c⟩ => (readFuzzySet table c).next

theorem finish_follows (a : Call) : (a.finish table).Follows a.start := by
  obtain ⟨routine, c⟩ := a
  cases routine with
  | premise => exact (readPremise c).forward
  | operand => exact (readOperand c).forward
  | terms => exact (readTerms table c).forward
  | fuzzySet => exact (readFuzzySet table c).forward

/-- The calls that a call makes directly. -/
inductive Makes [Scalar α] : Call → Call → Prop
  | operand (c : Cursor) : Makes ⟨.premise, c⟩ ⟨.operand, c⟩
  | premise {c : Cursor} {left : Premise} (first : (readOperand c).result = .ok left)
      (more : (readOperand c).next.peekKind = some .andWord ∨
        (readOperand c).next.peekKind = some .orWord) :
      Makes ⟨.premise, c⟩ ⟨.premise, (readOperand c).next.advance⟩
  | negatedOperand {c : Cursor} (negated : c.peekKind = some .notWord)
      (one : c.advance.peekKind = some .identifier ∨ c.advance.peekKind = some .openParen) :
      Makes ⟨.operand, c⟩ ⟨.operand, c.advance⟩
  | negatedPremise {c : Cursor} (negated : c.peekKind = some .notWord)
      (noName : c.advance.peekKind ≠ some .identifier)
      (noParen : c.advance.peekKind ≠ some .openParen) :
      Makes ⟨.operand, c⟩ ⟨.premise, c.advance⟩
  | group {c : Cursor} (opened : c.peekKind = some .openParen) :
      Makes ⟨.operand, c⟩ ⟨.premise, c.advance⟩
  | fuzzySet {c : Cursor} (opened : c.peekKind = some .termWord)
      (named : c.advance.peekKind = some .identifier) :
      Makes ⟨.terms, c⟩ ⟨.fuzzySet, c.advance.advance⟩
  | terms {c : Cursor} {term : Term α} (first : (readTerm table c).result = .ok term)
      (more : (readTerm table c).next.peekKind = some .comma) :
      Makes ⟨.terms, c⟩ ⟨.terms, (readTerm table c).next.advance⟩
  | inverted {c : Cursor} {name : Token} {ts : List Token} (first : c.rest = name :: ts)
      (function : table.find? name.text = some BuiltIn.inverted.reader)
      (opened : c.advance.peekKind = some .openParen) :
      Makes ⟨.fuzzySet, c⟩ ⟨.fuzzySet, c.advance.advance⟩

end Call

/-! ## What a call uses up -/

theorem readPremise_eq (c : Cursor) :
    readPremise c = (readOperand c).andThen fun left d _ =>
      if d.peekKind = some .andWord then
        ((readPremise d.advance).map left.and).since d.advance_follows
      else if d.peekKind = some .orWord then
        ((readPremise d.advance).map left.or).since d.advance_follows
      else .ok d left := by
  rw [readPremise]
  simp only [dite_eq_ite]

theorem next_readPremise_follows (c : Cursor) :
    (readPremise c).next.Follows (readOperand c).next := by
  rw [readPremise_eq]
  exact Reply.next_andThen_follows _ _

theorem next_readPremise {c : Cursor} {left : Premise} (first : (readOperand c).result = .ok left)
    (more : (readOperand c).next.peekKind = some .andWord ∨
      (readOperand c).next.peekKind = some .orWord) :
    (readPremise c).next = (readPremise (readOperand c).next.advance).next := by
  rw [readPremise_eq, Reply.andThen_ok first]
  rcases more with hk | hk <;> simp [hk, Reply.since, Reply.map]

theorem next_readOperand_group {c : Cursor} (opened : c.peekKind = some .openParen) :
    (readOperand c).next.Follows (readPremise c.advance).next := by
  rw [readOperand_group opened]
  exact Reply.next_andThen_follows (readPremise c.advance) _

section

variable {α : Type} {table : FunctionTable α} {c : Cursor}

theorem opened_of_readTerm {term : Term α} (h : (readTerm table c).result = .ok term) :
    c.peekKind = some .termWord := by
  obtain ⟨t, ts, hc, hk, -⟩ := Reading.yields_expect_bind_iff.1 (Reply.yields_next h)
  exact Cursor.peekKind_eq_some_iff.2 ⟨t, ts, hc, hk⟩

theorem next_readTerm_follows (opened : c.peekKind = some .termWord)
    (named : c.advance.peekKind = some .identifier) :
    (readTerm table c).next.Follows (readFuzzySet table c.advance.advance).next := by
  refine Reading.next_expect_andThen_follows opened fun _ => ?_
  refine Reading.next_expect_andThen_follows named fun name => ?_
  exact Reading.next_bind_follows (readFuzzySet table) _ _

theorem next_readTerms_follows (hk : c.peekKind = some .termWord) :
    (readTerms table c).next.Follows (readTerm table c).next := by
  rw [readTerms_termWord hk]
  exact Reply.next_andThen_follows _ _

theorem next_readTerms {term : Term α} (first : (readTerm table c).result = .ok term)
    (more : (readTerm table c).next.peekKind = some .comma) :
    (readTerms table c).next = (readTerms table (readTerm table c).next.advance).next := by
  rw [readTerms_termWord (opened_of_readTerm first), Reply.andThen_ok first, if_pos more]
  rfl

theorem next_readInverted_follows [Scalar α] {c : Cursor}
    {operand : (d : Cursor) → d.Follows c → Reply d (FuzzySet α)}
    (opened : c.peekKind = some .openParen) :
    (BuiltIn.readInverted c operand).next.Follows (operand c.advance c.advance_follows).next := by
  exact Reading.next_expect_andThen_follows opened fun _ => Reply.next_andThen_follows _ _

end

namespace Call.Makes

variable {α : Type} [Scalar α] {table : FunctionTable α} {a b : Call}

/-- A call starts within the call that makes it, and ends within it. -/
theorem within (h : Makes table a b) :
    b.start.Follows a.start ∧ (a.finish table).Follows (b.finish table) := by
  cases h with
  | operand c => exact ⟨.refl c, next_readPremise_follows c⟩
  | premise first more =>
    refine ⟨(Cursor.advance_follows _).trans (readOperand _).forward, ?_⟩
    simp only [finish, next_readPremise first more]
    exact .refl _
  | negatedOperand negated one =>
    refine ⟨Cursor.advance_follows _, ?_⟩
    simp only [finish, readOperand_not negated one]
    exact .refl _
  | negatedPremise negated noName noParen =>
    refine ⟨Cursor.advance_follows _, ?_⟩
    simp only [finish, readOperand_notRest negated noName noParen]
    exact .refl _
  | group opened => exact ⟨Cursor.advance_follows _, next_readOperand_group opened⟩
  | fuzzySet opened named =>
    refine ⟨(Cursor.advance_follows _).trans (Cursor.advance_follows _), ?_⟩
    exact (next_readTerms_follows opened).trans (next_readTerm_follows opened named)
  | terms first more =>
    refine ⟨(Cursor.advance_follows _).trans (readTerm table _).forward, ?_⟩
    simp only [finish, next_readTerms first more]
    exact .refl _
  | inverted first function opened =>
    refine ⟨(Cursor.advance_follows _).trans (Cursor.advance_follows _), ?_⟩
    simp only [finish, readFuzzySet_known first function]
    exact next_readInverted_follows opened

/-- Two calls that one call makes are one behind the other. -/
theorem apart {d : Call} (h : Makes table a b) (k : Makes table a d) (different : b ≠ d) :
    d.start.Follows (b.finish table) ∨ b.start.Follows (d.finish table) := by
  cases h with
  | operand c =>
    cases k with
    | operand => exact absurd rfl different
    | premise => exact .inl (Cursor.advance_follows _)
  | premise first more =>
    cases k with
    | operand => exact .inr (Cursor.advance_follows _)
    | premise => exact absurd rfl different
  | negatedOperand negated one =>
    cases k with
    | negatedOperand => exact absurd rfl different
    | negatedPremise _ noName noParen => exact absurd one (not_or.2 ⟨noName, noParen⟩)
    | group opened => simp [negated] at opened
  | negatedPremise negated noName noParen =>
    cases k with
    | negatedOperand _ one => exact absurd one (not_or.2 ⟨noName, noParen⟩)
    | negatedPremise => exact absurd rfl different
    | group => exact absurd rfl different
  | group opened =>
    cases k with
    | negatedOperand negated => simp [negated] at opened
    | negatedPremise => exact absurd rfl different
    | group => exact absurd rfl different
  | fuzzySet opened named =>
    cases k with
    | fuzzySet => exact absurd rfl different
    | terms => exact .inl ((Cursor.advance_follows _).trans (next_readTerm_follows opened named))
  | terms first more =>
    cases k with
    | fuzzySet opened named =>
      exact .inr ((Cursor.advance_follows _).trans (next_readTerm_follows opened named))
    | terms => exact absurd rfl different
  | inverted =>
    cases k
    exact absurd rfl different

end Call.Makes

/-! ## Calls inside calls -/

namespace Call

variable {α : Type} [Scalar α] {table : FunctionTable α} {a b : Call}

/-- What each call makes smaller. A premise starts with an operand at the same token, so the number
of tokens left does not do by itself. -/
def weight (a : Call) : Nat :=
  match a.routine with
  | .premise => 2 * a.start.rest.length + 1
  | _ => 2 * a.start.rest.length

theorem length_advance_advance_lt {c : Cursor} {k : TokenKind} (h : c.peekKind = some k) :
    c.advance.advance.rest.length < c.rest.length :=
  Nat.lt_of_le_of_lt c.advance.advance_follows.length_le (Cursor.length_advance_lt h)

theorem Makes.weight_lt (h : Makes table a b) : b.weight < a.weight := by
  cases h with
  | operand c => simp [weight]
  | premise first more =>
    rcases more with hk | hk <;>
      have := (readOperand _).forward.length_advance_lt hk <;> simp only [weight] <;> omega
  | negatedOperand negated | negatedPremise negated =>
    have := Cursor.length_advance_lt negated
    simp only [weight]
    omega
  | group opened =>
    have := Cursor.length_advance_lt opened
    simp only [weight]
    omega
  | fuzzySet opened =>
    have := length_advance_advance_lt opened
    simp only [weight]
    omega
  | terms first more =>
    have := (readTerm table _).forward.length_advance_lt more
    simp only [weight]
    omega
  | inverted first function opened =>
    have := length_advance_advance_lt (Cursor.peekKind_eq_some_iff.2 ⟨_, _, first, rfl⟩)
    simp only [weight]
    omega

theorem weight_lt_of_nested (h : TransGen (Makes table) a b) : b.weight < a.weight := by
  induction h with
  | single h => exact h.weight_lt
  | tail _ h ih => exact Nat.lt_trans h.weight_lt ih

/-- A call that comes up inside another one starts and ends within it. -/
theorem within_of_nested (h : ReflTransGen (Makes table) a b) :
    b.start.Follows a.start ∧ (a.finish table).Follows (b.finish table) := by
  induction h with
  | refl => exact ⟨.refl _, .refl _⟩
  | tail _ h ih => exact ⟨h.within.1.trans ih.1, ih.2.trans h.within.2⟩

/-- Inside another call of the same reading, a call starts at a later token. -/
theorem beyond_of_nested (h : TransGen (Makes table) a b) (same : a.routine = b.routine) :
    b.start.Beyond a.start := by
  refine (within_of_nested h.to_reflTransGen).1.beyond ?_
  have lighter := weight_lt_of_nested h
  unfold weight at lighter
  rw [same] at lighter
  split at lighter <;> omega

example {c : Cursor} (opened : c.peekKind = some .openParen) :
    TransGen (Makes table) ⟨.premise, c⟩ ⟨.premise, c.advance⟩ :=
  .head (.operand c) (.single (.group opened))

end Call

/-! ## No other calls -/

structure Readings (α : Type) where
  premise : Reading Premise
  operand : Reading Premise
  terms : Reading (List (Term α))
  fuzzySet : Reading (FuzzySet α)

namespace Readings

variable {α : Type}

def ofTable (table : FunctionTable α) : Readings α :=
  ⟨readPremise, readOperand, readTerms table, readFuzzySet table⟩

/-- The two give the same reply to the call. -/
def AgreesAt (r s : Readings α) : Call → Prop
  | ⟨.premise, c⟩ => r.premise c = s.premise c
  | ⟨.operand, c⟩ => r.operand c = s.operand c
  | ⟨.terms, c⟩ => r.terms c = s.terms c
  | ⟨.fuzzySet, c⟩ => r.fuzzySet c = s.fuzzySet c

/-- Reads `TERM name function`, the function with the reading `fuzzySet`. -/
def readTermWith (fuzzySet : Reading (FuzzySet α)) : Reading (Term α) := do
  let _ ← Reading.expect .termWord .strayInDefinition
  let name ← Reading.expect .identifier .missingTermName
  let m ← fuzzySet
  pure ⟨name.text, m⟩

/-- One layer of each reading of the language, with the readings `r` for the calls in it. -/
def layer (table : FunctionTable α) (r : Readings α) : Readings α where
  premise c := (r.operand c).andThen fun left d _ =>
    if d.peekKind = some .andWord then
      ((r.premise d.advance).map left.and).since d.advance_follows
    else if d.peekKind = some .orWord then
      ((r.premise d.advance).map left.or).since d.advance_follows
    else .ok d left
  operand c :=
    match c.peekKind with
    | some .notWord =>
      match c.advance.peekKind with
      | some .identifier | some .openParen =>
        ((r.operand c.advance).map .not).since c.advance_follows
      | _ => ((r.premise c.advance).map .not).since c.advance_follows
    | some .openParen =>
      ((r.premise c.advance).andThen fun inner d _ =>
        (Reading.expect .closeParen .unclosedGroup d).map fun _ => inner).since c.advance_follows
    | _ => (readProposition c).map .is
  terms c :=
    match c.peekKind with
    | some .closeParen => .ok c []
    | some .termWord =>
      (readTermWith r.fuzzySet c).andThen fun term d _ =>
        if d.peekKind = some .comma then
          ((r.terms d.advance).map (term :: ·)).since d.advance_follows
        else if d.peekKind = some .closeParen then .ok d [term]
        else .error d ⟨.missingTermSeparator, d.position⟩
    | some _ => .error c ⟨.strayInDefinition, c.position⟩
    | none => .error c ⟨.unclosedDefinition, c.position⟩
  fuzzySet c :=
    match c.rest with
    | [] => .error c ⟨.missingFunction, c.position⟩
    | name :: _ =>
      match table.find? name.text with
      | some reader => (reader c.advance fun d _ => r.fuzzySet d).since c.advance_follows
      | none =>
        (Reply.error c.advance ⟨.unknownFunction name.text, name.position⟩).since c.advance_follows

theorem readTermWith_congr {f g : Reading (FuzzySet α)} {c : Cursor}
    (h : c.peekKind = some .termWord → c.advance.peekKind = some .identifier →
      f c.advance.advance = g c.advance.advance) :
    readTermWith f c = readTermWith g c := by
  unfold readTermWith
  refine Reading.expect_andThen_congr fun _ opened => ?_
  refine Reading.expect_andThen_congr fun _ named => ?_
  change Reply.andThen _ _ = Reply.andThen _ _
  rw [h opened named]

variable [Scalar α] {table : FunctionTable α} {r : Readings α} {c : Cursor}

theorem layer_premise (h : ∀ b, Call.Makes table ⟨.premise, c⟩ b → r.AgreesAt (ofTable table) b) :
    (r.layer table).premise c = readPremise c := by
  have operand : r.operand c = readOperand c := h _ (.operand c)
  rw [readPremise_eq]
  simp only [layer, operand]
  refine Reply.andThen_congr fun left first => ?_
  by_cases hand : (readOperand c).next.peekKind = some .andWord
  · have premise : r.premise _ = readPremise _ := h _ (.premise first (.inl hand))
    rw [if_pos hand, if_pos hand, premise]
  by_cases hor : (readOperand c).next.peekKind = some .orWord
  · have premise : r.premise _ = readPremise _ := h _ (.premise first (.inr hor))
    rw [if_neg hand, if_pos hor, if_neg hand, if_pos hor, premise]
  · rw [if_neg hand, if_neg hor, if_neg hand, if_neg hor]

theorem layer_operand (h : ∀ b, Call.Makes table ⟨.operand, c⟩ b → r.AgreesAt (ofTable table) b) :
    (r.layer table).operand c = readOperand c := by
  simp only [layer]
  split
  · next negated =>
    split
    · next one =>
      have operand : r.operand _ = readOperand _ := h _ (.negatedOperand negated (.inl one))
      rw [readOperand_not negated (.inl one), operand]
    · next one =>
      have operand : r.operand _ = readOperand _ := h _ (.negatedOperand negated (.inr one))
      rw [readOperand_not negated (.inr one), operand]
    · next noName noParen =>
      have premise : r.premise _ = readPremise _ := h _ (.negatedPremise negated noName noParen)
      rw [readOperand_notRest negated noName noParen, premise]
  · next opened =>
    have premise : r.premise _ = readPremise _ := h _ (.group opened)
    rw [readOperand_group opened, premise]
  · next noNot noParen => rw [readOperand_proposition noNot noParen]

theorem layer_terms (h : ∀ b, Call.Makes table ⟨.terms, c⟩ b → r.AgreesAt (ofTable table) b) :
    (r.layer table).terms c = readTerms table c := by
  have term : readTermWith r.fuzzySet c = readTerm table c :=
    readTermWith_congr fun opened named => h _ (.fuzzySet opened named)
  simp only [layer]
  split
  · next hk => rw [readTerms_closeParen hk]
  · next hk =>
    rw [readTerms_termWord hk, term]
    refine Reply.andThen_congr fun t first => ?_
    by_cases more : (readTerm table c).next.peekKind = some .comma
    · have terms : r.terms _ = readTerms table _ := h _ (.terms first more)
      rw [if_pos more, if_pos more, terms]
    · rw [if_neg more, if_neg more]
  · next kind noParen noTerm hk =>
    rw [readTerms_stray (by simpa [hk] using noParen) (by simpa [hk] using noTerm), hk]
    simp
  · next hk => rw [readTerms_stray (by simp [hk]) (by simp [hk]), hk]; simp

theorem layer_fuzzySet
    (builtIn : ∀ word reader, table.find? word = some reader → ∃ f : BuiltIn, reader = f.reader)
    (h : ∀ b, Call.Makes table ⟨.fuzzySet, c⟩ b → r.AgreesAt (ofTable table) b) :
    (r.layer table).fuzzySet c = readFuzzySet table c := by
  simp only [layer]
  split
  · next hc => rw [readFuzzySet_nil hc]
  · next name ts hc =>
    split
    · next reader found =>
      rw [readFuzzySet_known hc found]
      obtain ⟨f, rfl⟩ := builtIn _ _ found
      congr 1
      -- Only an inverted set has an operand. The other functions read numbers.
      cases f with
      | linear | triangular | trapezoid => rfl
      | inverted =>
        simp only [BuiltIn.reader, BuiltIn.readInverted]
        refine Reading.expect_andThen_congr fun t opened => ?_
        have operand : r.fuzzySet _ = readFuzzySet table _ := h _ (.inverted hc found opened)
        rw [operand]
    · next missing => rw [readFuzzySet_unknown hc missing]

/-- A call makes no other calls than those it `Makes`: its reply is the same with other readings at
all other cursors. -/
theorem agreesAt_layer
    (builtIn : ∀ word reader, table.find? word = some reader → ∃ f : BuiltIn, reader = f.reader)
    {a : Call} (h : ∀ b, Call.Makes table a b → r.AgreesAt (ofTable table) b) :
    (r.layer table).AgreesAt (ofTable table) a := by
  obtain ⟨routine, c⟩ := a
  cases routine with
  | premise => exact layer_premise h
  | operand => exact layer_operand h
  | terms => exact layer_terms h
  | fuzzySet => exact layer_fuzzySet builtIn h

end Readings

/-! ## All statements -/

/-- What came of one statement, and the tokens it used up. -/
structure Round (α : Type) where
  attempt : Attempt α
  used : List Token

/-- The rounds in which all statements are read, from the first cursor up to the second one. -/
inductive Rounds {α : Type} (table : FunctionTable α) : Cursor → List (Round α) → Cursor → Prop
  | done {c : Cursor} (left : c.rest = []) : Rounds table c [] c
  | next {c d : Cursor} {first : Token} {after used : List Token} {rounds : List (Round α)}
      (start : c.rest = first :: after)
      (uses : c.rest = used ++ (readStatement table first c.advance).2.1.rest)
      (others : Rounds table (readStatement table first c.advance).2 rounds d) :
      Rounds table c (⟨(readStatement table first c.advance).1, used⟩ :: rounds) d

section

variable {α : Type} {table : FunctionTable α} {c d : Cursor} {rounds : List (Round α)}

theorem readStatement_beyond (table : FunctionTable α) {first : Token} {after : List Token}
    (h : c.rest = first :: after) :
    (readStatement table first c.advance).2.1.Beyond c := by
  have later := (readStatement table first c.advance).2.2
  exact (later.trans c.advance_follows).beyond (later.length_lt (by simp [h]))

/-- Reading statements goes on until no token is left. -/
theorem exists_rounds (table : FunctionTable α) (c : Cursor) :
    ∃ rounds, Rounds table c rounds (readStatements table c).2 ∧
      rounds.map (·.attempt) = (readStatements table c).1 := by
  cases hc : c.rest with
  | nil =>
    rw [readStatements_nil hc]
    exact ⟨[], .done hc, rfl⟩
  | cons first after =>
    -- The statement uses up its first token at least, so fewer are left for the others.
    have shorter := (readStatement table first c.advance).2.2.length_lt (by simp [hc])
    obtain ⟨rounds, others, attempts⟩ := exists_rounds table (readStatement table first c.advance).2
    obtain ⟨used, -, uses⟩ := readStatement_beyond table hc
    rw [readStatements_cons hc]
    exact ⟨_, .next hc uses others, by simp [attempts]⟩
  termination_by c.rest.length

theorem Rounds.used_ne_nil (h : Rounds table c rounds d) : ∀ round ∈ rounds, round.used ≠ [] := by
  induction h with
  | done => simp
  | @next c d first after used rounds start uses others ih =>
    obtain ⟨once, moved, again⟩ := readStatement_beyond table start
    have same : used = once := List.append_cancel_right (uses.symm.trans again)
    simpa [same, moved] using ih

theorem Rounds.flatten_used (h : Rounds table c rounds d) :
    (rounds.map (·.used)).flatten ++ d.rest = c.rest := by
  induction h with
  | done => rfl
  | next start uses others ih => rw [List.map_cons, List.flatten_cons, List.append_assoc, ih, uses]

theorem Rounds.rest_eq_nil (h : Rounds table c rounds d) : d.rest = [] := by
  induction h with
  | done left => exact left
  | next _ _ _ ih => exact ih

end

/-- Each round uses up the next tokens of the source, one at least, and the last round ends at its
end. Inside a round, the cursor goes forward through the calls too: inside another call of the same
reading a call starts at a later token, and nested calls share their tokens with nothing but the
calls around them. -/
theorem tokens_used_up_once {α : Type} [Scalar α] (entries : List (String × BuiltIn))
    (tokens : List Token) :
    let table : FunctionTable α := .ofBuiltIns entries
    let read := readStatements table (.ofTokens tokens)
    (∃ rounds, Rounds table (.ofTokens tokens) rounds read.2 ∧
      rounds.map (·.attempt) = (parseTokens table tokens).attempts ∧
      (∀ round ∈ rounds, round.used ≠ []) ∧
      (rounds.map (·.used)).flatten = tokens) ∧
    read.2.rest = [] ∧
    (∀ a b, TransGen (Call.Makes table) a b → a.routine = b.routine → b.start.Beyond a.start) ∧
    (∀ a b, ReflTransGen (Call.Makes table) a b →
      b.start.Follows a.start ∧ (b.finish table).Follows b.start ∧
        (a.finish table).Follows (b.finish table)) ∧
    (∀ a b d, Call.Makes table a b → Call.Makes table a d → b ≠ d →
      d.start.Follows (b.finish table) ∨ b.start.Follows (d.finish table)) ∧
    ∀ (r : Readings α) a, (∀ b, Call.Makes table a b → r.AgreesAt (.ofTable table) b) →
      (r.layer table).AgreesAt (.ofTable table) a := by
  intro table read
  obtain ⟨rounds, run, attempts⟩ := exists_rounds table (.ofTokens tokens)
  have ended : read.2.rest = [] := run.rest_eq_nil
  have pieces : (rounds.map (·.used)).flatten = tokens := by
    have := run.flatten_used
    rwa [run.rest_eq_nil, List.append_nil] at this
  have builtIn : ∀ word reader, table.find? word = some reader →
      ∃ f : BuiltIn, reader = f.reader := by
    intro word reader found
    rw [FunctionTable.find?_ofBuiltIns, Option.map_eq_some_iff] at found
    obtain ⟨entry, -, rfl⟩ := found
    exact ⟨entry.2, rfl⟩
  refine ⟨⟨rounds, run, attempts, run.used_ne_nil, pieces⟩, ended, ?_, ?_, ?_, ?_⟩
  · intro a b nested same
    exact Call.beyond_of_nested nested same
  · intro a b nested
    obtain ⟨starts, ends⟩ := Call.within_of_nested nested
    exact ⟨starts, b.finish_follows table, ends⟩
  · intro a b d made alsoMade different
    exact made.apart alsoMade different
  · intro r a agrees
    exact Readings.agreesAt_layer builtIn agrees

end FuzzyInference
