import FuzzyInference.Document
import FuzzyInference.Proofs.Vocabulary

/-!
# The grammar of the rule language

Which sequences of words are sources, and what they say, with no word on how they are read.

* `DerivesPremise`, `DerivesOperand`: premises. Neither `AND` nor `OR` binds more tightly than the
  other, and the right operand is a premise itself. A premise goes as far as it can, so whether a
  sequence is one depends on the kind of the word behind it;
* `DerivesFuzzySet`: a function with its numbers, from which it `Makes` a set, or an inverted set;
* `DerivesTerms`: terms with commas between them, and perhaps one behind the last;
* `DerivesBody`: a rule or a definition without its semicolon;
* `DerivesProgram`: a whole source, as a list of `Sentence`s;
* `DerivesArguments.parens`, `DerivesBody.define`, `DerivesBody.ifThen` and others: the same forms
  with the reserved words in upper case, as they are printed.
-/

namespace FuzzyInference

/-- A statement as it is written. Two terms of a definition may still share a name. -/
inductive Sentence (α : Type) where
  | rule (rule : Rule)
  | definition (name : String) (terms : List (Term α))

namespace Sentence

variable {α : Type}

def rule? : Sentence α → Option Rule
  | rule r => some r
  | definition _ _ => none

def definition? : Sentence α → Option (String × List (Term α))
  | rule _ => none
  | definition name terms => some (name, terms)

/-- No definition repeats the name of a term. -/
def Distinct : Sentence α → Prop
  | rule _ => True
  | definition _ terms => (terms.map (·.name)).Nodup

end Sentence

namespace Grammar

open TokenKind (ofText ofText_text)

/-- `variable IS term`. -/
inductive DerivesProposition : List String → Proposition → Prop
  | mk {name is term : String} (hn : ofText name = .identifier) (hi : ofText is = .isWord)
      (ht : ofText term = .identifier) : DerivesProposition [name, is, term] ⟨name, term⟩

/-- The kinds that the operand of a plain `NOT` starts with. -/
def StartsOperand (words : List String) : Prop :=
  words.head?.map ofText = some .identifier ∨ words.head?.map ofText = some .openParen

mutual

/-- A premise, with a word of the kind `next` behind it, or none. It ends where neither `AND` nor
`OR` follows. -/
inductive DerivesPremise : List String → Option TokenKind → Premise → Prop
  | single {ws next p} (operand : DerivesOperand ws next p) (noAnd : next ≠ some .andWord)
      (noOr : next ≠ some .orWord) : DerivesPremise ws next p
  | and {ws us next p q} {mark : String} (left : DerivesOperand ws (some .andWord) p)
      (hm : ofText mark = .andWord) (right : DerivesPremise us next q) :
      DerivesPremise (ws ++ mark :: us) next (p.and q)
  | or {ws us next p q} {mark : String} (left : DerivesOperand ws (some .orWord) p)
      (hm : ofText mark = .orWord) (right : DerivesPremise us next q) :
      DerivesPremise (ws ++ mark :: us) next (p.or q)

/-- An operand: a proposition, a premise in parentheses, or a negation. `NOT` applies to the one
proposition or group behind it, and before anything else to a whole premise. -/
inductive DerivesOperand : List String → Option TokenKind → Premise → Prop
  | is {ws next p} (proposition : DerivesProposition ws p) : DerivesOperand ws next (.is p)
  | group {ws next p} {first last : String} (hf : ofText first = .openParen)
      (inner : DerivesPremise ws (some .closeParen) p) (hl : ofText last = .closeParen) :
      DerivesOperand (first :: (ws ++ [last])) next p
  | not {ws next p} {mark : String} (hm : ofText mark = .notWord)
      (operand : DerivesOperand ws next p) (start : StartsOperand ws) :
      DerivesOperand (mark :: ws) next (.not p)
  | notRest {ws next p} {mark : String} (hm : ofText mark = .notWord)
      (premise : DerivesPremise ws next p) (other : ¬ StartsOperand ws) :
      DerivesOperand (mark :: ws) next (.not p)

end

variable {α : Type} [Scalar α]

/-- A number: a word that is not reserved and reads as a number. -/
inductive DerivesNumber : String → α → Prop
  | mk {word : String} {numeral : Numeral} (hw : ofText word = .identifier)
      (hn : Numeral.read? word = some numeral) : DerivesNumber word (Scalar.ofNumeral numeral)

inductive DerivesNumbers : List String → List α → Prop
  | nil : DerivesNumbers [] []
  | first {word x} (number : DerivesNumber word x) : DerivesNumbers [word] [x]
  | snoc {ws xs comma word x} (before : DerivesNumbers ws xs) (nonempty : xs ≠ [])
      (hc : ofText comma = .comma) (number : DerivesNumber word x) :
      DerivesNumbers (ws ++ [comma, word]) (xs ++ [x])

inductive DerivesArguments : List String → List α → Prop
  | mk {ws xs first last} (hf : ofText first = .openParen) (numbers : DerivesNumbers ws xs)
      (hl : ofText last = .closeParen) : DerivesArguments (first :: (ws ++ [last])) xs

/-- The fuzzy set that a function makes of its numbers. Those of `LINEAR` may come in either
order. -/
inductive Makes : BuiltIn → List α → FuzzySet α → Prop
  | linear (a b : α) : Makes .linear [a, b] (.ramp a b)
  | triangular (a b c : α) : Makes .triangular [a, b, c] (.triangular a b c)
  | trapezoid (a b c d : α) : Makes .trapezoid [a, b, c, d] (.trapezoid a b c d)

/-- A fuzzy set: a function with its numbers, or an inverted set. -/
inductive DerivesFuzzySet : List String → FuzzySet α → Prop
  | call {f name ws xs m} (hn : ofText name = BuiltIn.kind f) (arguments : DerivesArguments ws xs)
      (made : Makes f xs m) : DerivesFuzzySet (name :: ws) m
  | inverted {name ws m first last} (hn : ofText name = .inverted)
      (hf : ofText first = .openParen) (inner : DerivesFuzzySet ws m)
      (hl : ofText last = .closeParen) :
      DerivesFuzzySet (name :: first :: (ws ++ [last])) (.inverted m)

/-- `TERM name function`. -/
inductive DerivesTerm : List String → Term α → Prop
  | mk {mark name ws m} (hm : ofText mark = .termWord) (hn : ofText name = .identifier)
      (fuzzySet : DerivesFuzzySet ws m) : DerivesTerm (mark :: name :: ws) ⟨name, m⟩

/-- Terms with commas between them. Since there may be no term, a comma behind the last one does
no harm. -/
inductive DerivesTerms : List String → List (Term α) → Prop
  | nil : DerivesTerms [] []
  | last {ws t} (term : DerivesTerm ws t) : DerivesTerms ws [t]
  | cons {ws t comma us ts} (term : DerivesTerm ws t) (hc : ofText comma = .comma)
      (others : DerivesTerms us ts) : DerivesTerms (ws ++ comma :: us) (t :: ts)

/-- A statement without its semicolon. -/
inductive DerivesBody : List String → Sentence α → Prop
  | rule {mark ws p arrow us q} (hm : ofText mark = .ifWord)
      (premise : DerivesPremise ws (some .thenWord) p) (ha : ofText arrow = .thenWord)
      (conclusion : DerivesProposition us q) :
      DerivesBody (mark :: (ws ++ arrow :: us)) (.rule ⟨p, q⟩)
  | definition {mark name first ws ts last} (hm : ofText mark = .defineWord)
      (hn : ofText name = .identifier) (hf : ofText first = .openParen)
      (terms : DerivesTerms ws ts) (hl : ofText last = .closeParen) :
      DerivesBody (mark :: name :: first :: (ws ++ [last])) (.definition name ts)

/-- Statements, each with its semicolon. -/
inductive DerivesProgram : List String → List (Sentence α) → Prop
  | nil : DerivesProgram [] []
  | cons {ws s mark us ss} (body : DerivesBody ws s) (hm : ofText mark = .semicolon)
      (others : DerivesProgram us ss) : DerivesProgram (ws ++ mark :: us) (s :: ss)

/-! ## Reserved words in upper case -/

section

variable {name term word : String} {ws us : List String} {next : Option TokenKind}

theorem DerivesProposition.is (hn : ofText name = .identifier) (ht : ofText term = .identifier) :
    DerivesProposition [name, "IS", term] ⟨name, term⟩ :=
  .mk hn (ofText_text .isWord nofun) ht

theorem DerivesOperand.parens {p : Premise} (inner : DerivesPremise ws (some .closeParen) p) :
    DerivesOperand ("(" :: (ws ++ [")"])) next p :=
  .group (ofText_text .openParen nofun) inner (ofText_text .closeParen nofun)

theorem DerivesOperand.notWord {p : Premise} (operand : DerivesOperand ws next p)
    (start : StartsOperand ws) : DerivesOperand ("NOT" :: ws) next (.not p) :=
  .not (ofText_text .notWord nofun) operand start

theorem DerivesNumbers.comma {xs : List α} {x : α} (before : DerivesNumbers ws xs)
    (nonempty : xs ≠ []) (number : DerivesNumber word x) :
    DerivesNumbers (ws ++ [",", word]) (xs ++ [x]) :=
  .snoc before nonempty (ofText_text .comma nofun) number

theorem DerivesArguments.parens {xs : List α} (numbers : DerivesNumbers ws xs) :
    DerivesArguments ("(" :: (ws ++ [")"])) xs :=
  .mk (ofText_text .openParen nofun) numbers (ofText_text .closeParen nofun)

theorem DerivesTerm.termWord {m : FuzzySet α} (hn : ofText name = .identifier)
    (fuzzySet : DerivesFuzzySet ws m) : DerivesTerm ("TERM" :: name :: ws) ⟨name, m⟩ :=
  .mk (ofText_text .termWord nofun) hn fuzzySet

theorem DerivesTerms.comma {t : Term α} {ts : List (Term α)} (term : DerivesTerm ws t)
    (others : DerivesTerms us ts) : DerivesTerms (ws ++ "," :: us) (t :: ts) :=
  .cons term (ofText_text .comma nofun) others

theorem DerivesBody.ifThen {p : Premise} {q : Proposition}
    (premise : DerivesPremise ws (some .thenWord) p) (conclusion : DerivesProposition us q) :
    DerivesBody (α := α) ("IF" :: (ws ++ "THEN" :: us)) (.rule ⟨p, q⟩) :=
  .rule (ofText_text .ifWord nofun) premise (ofText_text .thenWord nofun) conclusion

theorem DerivesBody.define {ts : List (Term α)} (hn : ofText name = .identifier)
    (terms : DerivesTerms ws ts) :
    DerivesBody ("DEFINE" :: name :: "(" :: (ws ++ [")"])) (.definition name ts) :=
  .definition (ofText_text .defineWord nofun) hn (ofText_text .openParen nofun) terms
    (ofText_text .closeParen nofun)

theorem DerivesProgram.semicolon {s : Sentence α} {ss : List (Sentence α)}
    (body : DerivesBody ws s) (others : DerivesProgram us ss) :
    DerivesProgram (ws ++ ";" :: us) (s :: ss) :=
  .cons body (ofText_text .semicolon nofun) others

end

end Grammar

end FuzzyInference
