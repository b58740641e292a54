import FuzzyInference.Proofs.Attempts
import FuzzyInference.Proofs.Binary64Order
import FuzzyInference.Proofs.Flattening
import FuzzyInference.Proofs.Recognition

/-!
# The tree of a premise in its text

* `NestsPremise`, `NestsOperand`: premises with every `AND` and every `OR` as a node of two
  operands, of which the right one is all the rest;
* `derivesPremise_iff_nests`: what the grammar derives is such a tree made flat;
* `triples`: the propositions `variable IS term` in a text;
* `flat_premises_mean_nested_ones`: joining premises into flat nodes changes no degree, no failure
  and no proposition, and so a premise that was read means what its text says.
-/

namespace FuzzyInference

namespace Grammar

open TokenKind (ofText)

mutual

/-- A premise with a word of the kind `next` behind it, or none, as a tree. -/
inductive NestsPremise : List String → Option TokenKind → PremiseTree → Prop
  | single {ws next t} (operand : NestsOperand ws next t) (noAnd : next ≠ some .andWord)
      (noOr : next ≠ some .orWord) : NestsPremise ws next t
  | and {ws us next l r} {mark : String} (left : NestsOperand ws (some .andWord) l)
      (hm : ofText mark = .andWord) (right : NestsPremise us next r) :
      NestsPremise (ws ++ mark :: us) next (.and l r)
  | or {ws us next l r} {mark : String} (left : NestsOperand ws (some .orWord) l)
      (hm : ofText mark = .orWord) (right : NestsPremise us next r) :
      NestsPremise (ws ++ mark :: us) next (.or l r)

/-- An operand as a tree. Parentheses leave no trace in it. -/
inductive NestsOperand : List String → Option TokenKind → PremiseTree → Prop
  | is {ws next p} (proposition : DerivesProposition ws p) : NestsOperand ws next (.is p)
  | group {ws next t} {first last : String} (hf : ofText first = .openParen)
      (inner : NestsPremise ws (some .closeParen) t) (hl : ofText last = .closeParen) :
      NestsOperand (first :: (ws ++ [last])) next t
  | not {ws next t} {mark : String} (hm : ofText mark = .notWord)
      (operand : NestsOperand ws next t) (start : StartsOperand ws) :
      NestsOperand (mark :: ws) next (.not t)
  | notRest {ws next t} {mark : String} (hm : ofText mark = .notWord)
      (premise : NestsPremise ws next t) (other : ¬ StartsOperand ws) :
      NestsOperand (mark :: ws) next (.not t)

end

mutual

theorem NestsPremise.derives {ws : List String} {next : Option TokenKind} {t : PremiseTree} :
    NestsPremise ws next t → DerivesPremise ws next t.flat
  | .single operand noAnd noOr => .single operand.derives noAnd noOr
  | .and left hm right => .and left.derives hm right.derives
  | .or left hm right => .or left.derives hm right.derives

theorem NestsOperand.derives {ws : List String} {next : Option TokenKind} {t : PremiseTree} :
    NestsOperand ws next t → DerivesOperand ws next t.flat
  | .is proposition => .is proposition
  | .group hf inner hl => .group hf inner.derives hl
  | .not hm operand start => .not hm operand.derives start
  | .notRest hm premise other => .notRest hm premise.derives other

end

mutual

theorem DerivesPremise.exists_tree {ws : List String} {next : Option TokenKind} {p : Premise} :
    DerivesPremise ws next p → ∃ t, NestsPremise ws next t ∧ t.flat = p
  | .single operand noAnd noOr => by
    obtain ⟨t, ht, rfl⟩ := operand.exists_tree
    exact ⟨t, .single ht noAnd noOr, rfl⟩
  | .and left hm right => by
    obtain ⟨l, hl, rfl⟩ := left.exists_tree
    obtain ⟨r, hr, rfl⟩ := right.exists_tree
    exact ⟨.and l r, .and hl hm hr, rfl⟩
  | .or left hm right => by
    obtain ⟨l, hl, rfl⟩ := left.exists_tree
    obtain ⟨r, hr, rfl⟩ := right.exists_tree
    exact ⟨.or l r, .or hl hm hr, rfl⟩

theorem DerivesOperand.exists_tree {ws : List String} {next : Option TokenKind} {p : Premise} :
    DerivesOperand ws next p → ∃ t, NestsOperand ws next t ∧ t.flat = p
  | .is proposition => ⟨.is _, .is proposition, rfl⟩
  | .group hf inner hl => by
    obtain ⟨t, ht, rfl⟩ := inner.exists_tree
    exact ⟨t, .group hf ht hl, rfl⟩
  | .not hm operand start => by
    obtain ⟨t, ht, rfl⟩ := operand.exists_tree
    exact ⟨.not t, .not hm ht start, rfl⟩
  | .notRest hm premise other => by
    obtain ⟨t, ht, rfl⟩ := premise.exists_tree
    exact ⟨.not t, .notRest hm ht other, rfl⟩

end

/-- The grammar derives the trees of its texts, made flat. -/
theorem derivesPremise_iff_nests {ws : List String} {next : Option TokenKind} {p : Premise} :
    DerivesPremise ws next p ↔ ∃ t, NestsPremise ws next t ∧ t.flat = p := by
  constructor
  · intro h
    exact h.exists_tree
  · rintro ⟨t, ht, rfl⟩
    exact ht.derives

/-! ## The propositions in a text -/

/-- All `variable IS term` in a text, from left to right: a proposition for every `IS` with a word
on either side. -/
def triples : List String → List Proposition
  | w :: is :: u :: ws =>
    if ofText is = .isWord then ⟨w, u⟩ :: triples (is :: u :: ws) else triples (is :: u :: ws)
  | _ => []

/-- The text starts with no `IS` and ends with none. -/
def Enclosed (ws : List String) : Prop :=
  ws.head?.map ofText ≠ some .isWord ∧ ws.getLast?.map ofText ≠ some .isWord

theorem triples_cons {ws : List String} (h : ws.head?.map ofText ≠ some .isWord) (w : String) :
    triples (w :: ws) = triples ws := by
  match ws with
  | [] | [is] => rfl
  | is :: u :: ws =>
    rw [triples, if_neg]
    simpa using h

/-- No proposition goes beyond a place with no `IS` on either side. -/
theorem triples_append {ws us : List String} (before : ws.getLast?.map ofText ≠ some .isWord)
    (behind : us.head?.map ofText ≠ some .isWord) :
    triples (ws ++ us) = triples ws ++ triples us := by
  fun_induction triples ws with
  | case1 w is u ws isWord ih =>
    have ih := ih (by simpa using before)
    simp only [List.cons_append] at ih ⊢
    rw [triples, if_pos isWord, ih]
  | case2 w is u ws noIs ih =>
    have ih := ih (by simpa using before)
    simp only [List.cons_append] at ih ⊢
    rw [triples, if_neg noIs, ih]
  | case3 ws short =>
    match ws with
    | [] => rfl
    | [w] => exact triples_cons behind w
    | [w, v] =>
      have noIs : ((v :: us).head?.map ofText) ≠ some .isWord := by simpa using before
      exact (triples_cons noIs w).trans (triples_cons behind v)
    | w :: is :: u :: ws => exact absurd rfl (short w is u ws)

section

variable {ws us : List String} {w : String} {kind : TokenKind}

theorem Enclosed.cons (h : Enclosed ws) (nonempty : ws ≠ []) (hw : ofText w = kind)
    (noIs : kind ≠ .isWord) : Enclosed (w :: ws) ∧ triples (w :: ws) = triples ws := by
  refine ⟨⟨?_, ?_⟩, triples_cons h.1 w⟩
  · simpa [hw] using noIs
  · obtain ⟨v, us, rfl⟩ := List.exists_cons_of_ne_nil nonempty
    rw [List.getLast?_cons_cons]
    exact h.2

theorem Enclosed.join (hws : Enclosed ws) (hus : Enclosed us) (nonempty : ws ≠ [])
    (more : us ≠ []) :
    Enclosed (ws ++ us) ∧ triples (ws ++ us) = triples ws ++ triples us := by
  refine ⟨⟨?_, ?_⟩, triples_append hws.2 hus.1⟩
  · rw [List.head?_append_of_ne_nil _ nonempty]
    exact hws.1
  · rw [List.getLast?_append_of_ne_nil _ more]
    exact hus.2

/-- Two enclosed texts with another word between them are enclosed. -/
theorem Enclosed.append (hws : Enclosed ws) (hus : Enclosed us) (nonempty : ws ≠ [])
    (more : us ≠ []) (hw : ofText w = kind) (noIs : kind ≠ .isWord) :
    Enclosed (ws ++ w :: us) ∧ triples (ws ++ w :: us) = triples ws ++ triples us := by
  obtain ⟨behind, same⟩ := hus.cons more hw noIs
  rw [← same]
  exact hws.join behind nonempty (List.cons_ne_nil w us)

theorem Enclosed.concat (h : Enclosed ws) (nonempty : ws ≠ []) (hw : ofText w = kind)
    (noIs : kind ≠ .isWord) : Enclosed (ws ++ [w]) ∧ triples (ws ++ [w]) = triples ws := by
  have single : Enclosed [w] := by simp [Enclosed, hw, noIs]
  obtain ⟨joined, same⟩ := h.join single nonempty (List.cons_ne_nil w [])
  exact ⟨joined, same.trans (List.append_nil _)⟩

end

theorem DerivesProposition.triples_eq {ws : List String} {p : Proposition}
    (h : DerivesProposition ws p) : Enclosed ws ∧ triples ws = [p] := by
  cases h with
  | mk hn hi ht => simp [Enclosed, triples, hn, hi, ht]

mutual

/-- A premise has the propositions of its text, none more, none less, and in their order. -/
theorem DerivesPremise.triples_eq {ws : List String} {next : Option TokenKind} {p : Premise} :
    DerivesPremise ws next p → Enclosed ws ∧ triples ws = p.propositions
  | .single operand _ _ => operand.triples_eq
  | .and left hm right => by
    obtain ⟨hl, leftTriples⟩ := left.triples_eq
    obtain ⟨hr, rightTriples⟩ := right.triples_eq
    rw [Premise.propositions_and, ← leftTriples, ← rightTriples]
    exact hl.append hr left.ne_nil right.ne_nil hm nofun
  | .or left hm right => by
    obtain ⟨hl, leftTriples⟩ := left.triples_eq
    obtain ⟨hr, rightTriples⟩ := right.triples_eq
    rw [Premise.propositions_or, ← leftTriples, ← rightTriples]
    exact hl.append hr left.ne_nil right.ne_nil hm nofun

theorem DerivesOperand.triples_eq {ws : List String} {next : Option TokenKind} {p : Premise} :
    DerivesOperand ws next p → Enclosed ws ∧ triples ws = p.propositions
  | .is proposition => proposition.triples_eq
  | .group hf inner hl => by
    obtain ⟨hi, innerTriples⟩ := inner.triples_eq
    obtain ⟨closed, sameClosed⟩ := hi.concat inner.ne_nil hl nofun
    obtain ⟨opened, sameOpened⟩ := closed.cons (by simp) hf nofun
    exact ⟨opened, by rw [sameOpened, sameClosed, innerTriples]⟩
  | .not hm operand _ => by
    obtain ⟨ho, operandTriples⟩ := operand.triples_eq
    rw [Premise.propositions, ← operandTriples]
    exact ho.cons operand.ne_nil hm nofun
  | .notRest hm premise _ => by
    obtain ⟨hp, premiseTriples⟩ := premise.triples_eq
    rw [Premise.propositions, ← premiseTriples]
    exact hp.cons premise.ne_nil hm nofun

end

end Grammar

open Grammar

/-! ## Premises that were read -/

/-- The premise means what the tokens `used` say, with a token of the kind `next` behind them: it
has their propositions, and the degree of their tree. -/
structure Premise.MeansText (p : Premise) (used : List Token) (next : Option TokenKind) : Prop where
  propositions : p.propositions = triples (words used)
  tree : ∃ t, NestsPremise (words used) next t
  meaning : ∀ t, NestsPremise (words used) next t →
    p.propositions = t.leaves ∧ ∀ ctx : Context Float, p.degree ctx = t.nested.degree ctx

theorem defined_posInf : Scalar.Defined (Scalar.posInf : Float) := by decide +kernel

theorem defined_negInf : Scalar.Defined (Scalar.negInf : Float) := by decide +kernel

/-- Tokens derive at most one premise. -/
theorem derivesPremise_unique {used rest : List Token} {p q : Premise}
    (hp : DerivesPremise (words used) (nextKind rest) p)
    (hq : DerivesPremise (words used) (nextKind rest) q) : p = q := by
  have yields {r : Premise} (h : DerivesPremise (words used) (nextKind rest) r) :
      (readPremise ⟨used ++ rest, .start⟩).Yields r rest :=
    yields_readPremise_iff.2 ⟨used, rfl, h⟩
  have both := (yields hp).1.symm.trans (yields hq).1
  exact Except.ok.inj both

theorem meansText_of_derives {used rest : List Token} {p : Premise}
    (h : DerivesPremise (words used) (nextKind rest) p) : p.MeansText used (nextKind rest) := by
  refine ⟨h.triples_eq.2.symm, ?_, ?_⟩
  · obtain ⟨t, ht, -⟩ := derivesPremise_iff_nests.1 h
    exact ⟨t, ht⟩
  · intro t ht
    obtain rfl := derivesPremise_unique h (derivesPremise_iff_nests.2 ⟨t, ht, rfl⟩)
    exact ⟨t.propositions_flat, fun ctx => t.degree_flat defined_posInf defined_negInf ctx⟩

theorem meansText_of_readPremise {c : Cursor} {p : Premise} (h : (readPremise c).result = .ok p) :
    ∃ used, c.rest = used ++ (readPremise c).next.rest ∧
      p.MeansText used (nextKind (readPremise c).next.rest) := by
  obtain ⟨used, hu, derived⟩ := yields_readPremise_iff.1 (Reply.yields_next h)
  exact ⟨used, hu, meansText_of_derives derived⟩

theorem meansText_of_readRule {c : Cursor} {r : Rule} (h : (readRule c).result = .ok r) :
    ∃ used arrow behind, c.rest = used ++ arrow :: behind ∧ arrow.kind = .thenWord ∧
      r.premise.MeansText used (some .thenWord) := by
  have h := Reply.yields_next h
  unfold readRule at h
  obtain ⟨p, ⟨read, -⟩, h⟩ := Reading.yields_bind_iff.1 h
  obtain ⟨arrow, behind, hr, thenWord, h⟩ := Reading.yields_expect_bind_iff.1 h
  obtain ⟨q, -, h⟩ := Reading.yields_bind_iff.1 h
  obtain ⟨rfl, -⟩ := Reading.yields_pure_iff.1 h
  obtain ⟨used, hu, means⟩ := meansText_of_readPremise read
  rw [hr, nextKind_cons, thenWord] at means
  rw [hr] at hu
  exact ⟨used, arrow, behind, hu, thenWord, means⟩

/-- The premise of every rule of a source stands between an `IF` and a `THEN`. -/
theorem meansText_of_mem {α : Type} {table : FunctionTable α} {tokens : List Token} {r : Rule}
    (h : r ∈ (parseTokens table tokens).document.rules) :
    ∃ before mark used arrow behind, tokens = before ++ mark :: (used ++ arrow :: behind) ∧
      mark.kind = .ifWord ∧ arrow.kind = .thenWord ∧
      r.premise.MeansText used (some .thenWord) := by
  obtain ⟨s, hs, rule⟩ := List.mem_filterMap.1 h
  obtain ⟨mark, c, later, statement⟩ := exists_readStatement_of_mem_statements hs
  cases s with
  | definition => cases rule
  | rule q =>
    obtain rfl := Option.some.inj rule
    obtain ⟨ifWord, read⟩ := readStatement_eq_rule_iff.1 statement
    obtain ⟨used, arrow, behind, hr, thenWord, means⟩ := meansText_of_readRule read
    obtain ⟨before, rfl⟩ := later
    rw [hr]
    exact ⟨before, mark, used, arrow, behind, rfl, ifWord, thenWord, means⟩

/-- Joining two premises into one flat node changes no degree, no failure and no proposition, and it
does not matter which two of three premises are joined first. So every premise that is read, and the
premise of every rule of a source, has the degree of the tree of its text, with every `AND` and `OR`
a node of two operands, and has the propositions of that text. -/
theorem flat_premises_mean_nested_ones :
    (∀ (a b : Premise) (ctx : Context Float),
      (a.and b).degree ctx = (Premise.all [a, b]).degree ctx ∧
      (a.or b).degree ctx = (Premise.any [a, b]).degree ctx) ∧
    (∀ a b : Premise,
      (a.and b).propositions = a.propositions ++ b.propositions ∧
      (a.or b).propositions = a.propositions ++ b.propositions) ∧
    (∀ a b c : Premise,
      (a.and b).and c = a.and (b.and c) ∧ (a.or b).or c = a.or (b.or c)) ∧
    (∀ (c : Cursor) (p : Premise), (readPremise c).result = .ok p →
      ∃ used, c.rest = used ++ (readPremise c).next.rest ∧
        p.MeansText used (nextKind (readPremise c).next.rest)) ∧
    ∀ (table : FunctionTable Float) (tokens : List Token),
      ∀ r ∈ (parseTokens table tokens).document.rules,
        ∃ before mark used arrow behind, tokens = before ++ mark :: (used ++ arrow :: behind) ∧
          mark.kind = .ifWord ∧ arrow.kind = .thenWord ∧
          r.premise.MeansText used (some .thenWord) := by
  refine ⟨?_, ?_, ?_, ?_, ?_⟩
  · intro a b ctx
    exact ⟨a.degree_and defined_posInf ctx b, a.degree_or defined_negInf ctx b⟩
  · intro a b
    exact ⟨a.propositions_and b, a.propositions_or b⟩
  · intro a b c
    exact ⟨a.and_assoc b c, a.or_assoc b c⟩
  · intro c p read
    exact meansText_of_readPremise read
  · intro table tokens r hr
    exact meansText_of_mem hr

/-- A negated group with a conjunction behind it. -/
def negatedGroupTokens : List Token :=
  ["NOT", "(", "hot", "IS", "high", "OR", "dry", "IS", "very", ")", "AND", "wind", "IS", "low"].map
    (⟨·, .start⟩)

def negatedGroup : Premise :=
  .all [.not (.any [.is ⟨"hot", "high"⟩, .is ⟨"dry", "very"⟩]), .is ⟨"wind", "low"⟩]

theorem flat_premises_mean_nested_ones_negated_group :
    (readPremise (.ofTokens negatedGroupTokens)).result = .ok negatedGroup ∧
    ∃ used, negatedGroupTokens = used ++ (readPremise (.ofTokens negatedGroupTokens)).next.rest ∧
      negatedGroup.MeansText used
        (nextKind (readPremise (.ofTokens negatedGroupTokens)).next.rest) := by
  have read : (readPremise (.ofTokens negatedGroupTokens)).result = .ok negatedGroup := by cbv
  have means := flat_premises_mean_nested_ones.2.2.2.1
  exact ⟨read, means (.ofTokens negatedGroupTokens) negatedGroup read⟩

end FuzzyInference
