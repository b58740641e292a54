import FuzzyInference.Language.Parsing
import FuzzyInference.Proofs.Grammar
import FuzzyInference.Proofs.Vocabulary
import FuzzyInference.Proofs.Yield
import Mathlib.Tactic.SplitIfs

/-!
# Recognition

Each reading yields what the grammar derives from the tokens it uses up, and yields it whenever
the grammar does. The statements are equivalences over all that may stand behind these tokens:

* `Takes`: some tokens at the front derive a value, and the others are left;
* `yields_readPremise_iff`, `yields_readFuzzySet_iff`, `yields_readTerms_iff`: the recursive
  readings, each by induction along its own recursion;
* `yields_readRule_iff`, `yields_readDefinition_iff`: statements without their first word.
-/

namespace FuzzyInference

open Grammar

abbrev words (tokens : List Token) : List String := tokens.map (·.text)

theorem nextKind_append_of_ne_nil {ts us : List Token} (h : ts ≠ []) :
    nextKind (ts ++ us) = nextKind ts := by
  cases ts with
  | nil => contradiction
  | cons t ts => rfl

/-- `D` derives `v` from some tokens at the front, and `rest` are the others. -/
def Takes {β : Type} (D : List String → β → Prop) (tokens : List Token) (v : β)
    (rest : List Token) : Prop :=
  ∃ used, tokens = used ++ rest ∧ D (words used) v

theorem words_eq_append {used : List Token} {ws us : List String} (h : words used = ws ++ us) :
    ∃ ts vs, used = ts ++ vs ∧ words ts = ws ∧ words vs = us := by
  obtain ⟨ts, vs, rfl, ht, hv⟩ := List.map_eq_append_iff.1 h
  exact ⟨ts, vs, rfl, ht, hv⟩

theorem words_eq_cons {used : List Token} {w : String} {us : List String}
    (h : words used = w :: us) : ∃ t ts, used = t :: ts ∧ t.text = w ∧ words ts = us := by
  obtain ⟨t, ts, rfl, ht, hv⟩ := List.map_eq_cons_iff.1 h
  exact ⟨t, ts, rfl, ht, hv⟩

theorem words_eq_concat {used : List Token} {ws : List String} {w : String}
    (h : words used = ws ++ [w]) : ∃ ts t, used = ts ++ [t] ∧ words ts = ws ∧ t.text = w := by
  obtain ⟨ts, us, rfl, ht, hu⟩ := words_eq_append h
  obtain ⟨t, vs, rfl, rfl, hv⟩ := words_eq_cons hu
  obtain rfl := List.map_eq_nil_iff.1 hv
  exact ⟨ts, t, rfl, ht, rfl⟩

theorem yields_readProposition_iff {c : Cursor} {p : Proposition} {rest : List Token} :
    (readProposition c).Yields p rest ↔ Takes DerivesProposition c.rest p rest := by
  unfold readProposition
  simp only [Reading.yields_expect_bind_iff, Reading.yields_expectAt_bind_iff,
    Reading.yields_pure_iff]
  constructor
  · rintro ⟨name, ts, hr, hn, is, us, rfl, hi, term, vs, rfl, ht, rfl, rfl⟩
    exact ⟨[name, is, term], hr, .mk hn hi ht⟩
  · rintro ⟨used, hr, h⟩
    generalize hw : words used = ws at h
    cases h with
    | @mk name is term hn hi ht =>
      obtain ⟨n, us, rfl, rfl, h₁⟩ := words_eq_cons hw
      obtain ⟨i, vs, rfl, rfl, h₂⟩ := words_eq_cons h₁
      obtain ⟨t, ws, rfl, rfl, h₃⟩ := words_eq_cons h₂
      obtain rfl := List.map_eq_nil_iff.1 h₃
      exact ⟨n, _, hr, hn, i, _, rfl, hi, t, _, rfl, ht, rfl, rfl⟩

/-! ## Premises -/

/-- What a reading of premises has to yield. -/
def RecognizesPremise (r : (c : Cursor) → Reply c Premise)
    (D : List String → Option TokenKind → Premise → Prop) (c : Cursor) : Prop :=
  ∀ p rest, (r c).Yields p rest ↔ Takes (D · (nextKind rest)) c.rest p rest

/-- Behind `AND` or `OR` the rest of a premise is read as it is derived. -/
theorem yields_joined_iff {c d : Cursor} {kind : TokenKind} {h : d.advance.Follows c}
    {join : Premise → Premise} {p : Premise} {rest : List Token} (hk : d.peekKind = some kind)
    (behind : RecognizesPremise readPremise DerivesPremise d.advance) :
    (((readPremise d.advance).map join).since h).Yields p rest ↔
      ∃ mark us q, d.rest = mark :: (us ++ rest) ∧ mark.kind = kind ∧
        DerivesPremise (words us) (nextKind rest) q ∧ join q = p := by
  obtain ⟨mark, ts, hr, hm⟩ := Cursor.peekKind_eq_some_iff.1 hk
  have ha : d.advance.rest = ts := by simp [Cursor.advance, hr]
  rw [Reply.yields_since_iff, Reply.yields_map_iff]
  simp only [behind _ rest, Takes, ha, hr]
  constructor
  · rintro ⟨q, ⟨us, rfl, hq⟩, rfl⟩
    exact ⟨mark, us, q, rfl, hm, hq, rfl⟩
  · rintro ⟨_, us, q, he, -, hq, rfl⟩
    obtain ⟨rfl, rfl⟩ := List.cons.inj he
    exact ⟨q, ⟨us, rfl, hq⟩, rfl⟩

/-- An operand in front of a word of the kind `kind` is read up to that word. -/
theorem readOperand_before {c : Cursor} {ts us : List Token} {mark : Token} {kind : TokenKind}
    {left : Premise} (operand : RecognizesPremise readOperand DerivesOperand c)
    (hr : c.rest = ts ++ mark :: us) (hm : mark.kind = kind)
    (h : DerivesOperand (words ts) (some kind) left) :
    (readOperand c).Yields left (mark :: us) ∧ (readOperand c).next.peekKind = some kind := by
  have hy := (operand left (mark :: us)).2 ⟨ts, hr, by rw [nextKind_cons, hm]; exact h⟩
  refine ⟨hy, ?_⟩
  rw [Cursor.peekKind_eq, hy.2, nextKind_cons, hm]

theorem recognizes_premise {c : Cursor}
    (operand : RecognizesPremise readOperand DerivesOperand c)
    (behindAnd : ∀ d : Cursor, d.Follows c → d.peekKind = some .andWord →
      RecognizesPremise readPremise DerivesPremise d.advance)
    (behindOr : ∀ d : Cursor, d.Follows c → d.peekKind = some .orWord →
      RecognizesPremise readPremise DerivesPremise d.advance) :
    RecognizesPremise readPremise DerivesPremise c := by
  intro p rest
  rw [readPremise, Reply.yields_andThen_iff]
  constructor
  · rintro ⟨left, hleft, h⟩
    obtain ⟨used, hu, hl⟩ := (operand left _).1 hleft
    have later := (readOperand c).forward
    split_ifs at h with ha ho
    · obtain ⟨mark, us, q, hr, hm, hq, rfl⟩ := (yields_joined_iff ha (behindAnd _ later ha)).1 h
      rw [hr, nextKind_cons, hm] at hl
      exact ⟨used ++ mark :: us, by simp [hu, hr], by simpa using .and hl hm hq⟩
    · obtain ⟨mark, us, q, hr, hm, hq, rfl⟩ := (yields_joined_iff ho (behindOr _ later ho)).1 h
      rw [hr, nextKind_cons, hm] at hl
      exact ⟨used ++ mark :: us, by simp [hu, hr], by simpa using .or hl hm hq⟩
    · obtain ⟨rfl, rfl⟩ := Reply.yields_ok_iff.1 h
      exact ⟨used, hu, .single hl ha ho⟩
  · rintro ⟨used, hu, h⟩
    generalize hw : words used = ws at h
    generalize hn : nextKind rest = next at h
    cases h with
    | single left noAnd noOr =>
      subst hw hn
      have hleft := (operand p rest).2 ⟨used, hu, left⟩
      obtain ⟨hv, hr⟩ := hleft
      refine ⟨p, ⟨hv, rfl⟩, ?_⟩
      rw [← hr, ← Cursor.peekKind_eq] at noAnd noOr
      rw [dif_neg noAnd, dif_neg noOr]
      exact Reply.yields_ok_iff.2 ⟨rfl, hr⟩
    | and left hm right =>
      obtain ⟨ts, vs, rfl, rfl, hv⟩ := words_eq_append hw
      obtain ⟨mark, us, rfl, rfl, rfl⟩ := words_eq_cons hv
      obtain ⟨⟨hv, hr⟩, ha⟩ := readOperand_before operand (by simpa using hu) hm left
      refine ⟨_, ⟨hv, rfl⟩, ?_⟩
      rw [dif_pos ha]
      exact (yields_joined_iff ha (behindAnd _ (readOperand c).forward ha)).2
        ⟨mark, us, _, hr, hm, hn ▸ right, rfl⟩
    | or left hm right =>
      obtain ⟨ts, vs, rfl, rfl, hv⟩ := words_eq_append hw
      obtain ⟨mark, us, rfl, rfl, rfl⟩ := words_eq_cons hv
      obtain ⟨⟨hv, hr⟩, ho⟩ := readOperand_before operand (by simpa using hu) hm left
      refine ⟨_, ⟨hv, rfl⟩, ?_⟩
      rw [dif_neg (by rw [ho]; decide), dif_pos ho]
      exact (yields_joined_iff ho (behindOr _ (readOperand c).forward ho)).2
        ⟨mark, us, _, hr, hm, hn ▸ right, rfl⟩

theorem startsOperand_iff {tokens : List Token} :
    StartsOperand (words tokens) ↔
      nextKind tokens = some .identifier ∨ nextKind tokens = some .openParen := by
  cases tokens <;> simp [StartsOperand, nextKind, Token.kind]

theorem Grammar.DerivesOperand.ne_nil {ws : List String} {next : Option TokenKind} {p : Premise}
    (h : DerivesOperand ws next p) : ws ≠ [] := by
  cases h with
  | is h => cases h; simp
  | group | not | notRest => simp

theorem Grammar.DerivesPremise.ne_nil {ws : List String} {next : Option TokenKind} {p : Premise}
    (h : DerivesPremise ws next p) : ws ≠ [] := by
  cases h with
  | single h => exact h.ne_nil
  | and | or => simp

/-- An operand is never empty, so its first word decides even when more follows. -/
theorem startsOperand_append_iff {used rest : List Token} (h : words used ≠ []) :
    StartsOperand (words (used ++ rest)) ↔ StartsOperand (words used) := by
  rw [startsOperand_iff, startsOperand_iff, nextKind_append_of_ne_nil (by simpa using h)]

/-- Behind `NOT`, the operand of a plain negation or a whole premise is read, by the next word. -/
theorem readOperand_notWord {c : Cursor} {mark : Token} {ts : List Token}
    (hr : c.rest = mark :: ts) (hm : mark.kind = .notWord) {p : Premise} {rest : List Token} :
    (readOperand c).Yields p rest ↔
      ∃ q, p = .not q ∧
        ((StartsOperand (words ts) ∧ (readOperand c.advance).Yields q rest) ∨
          (¬ StartsOperand (words ts) ∧ (readPremise c.advance).Yields q rest)) := by
  have hk : c.peekKind = some .notWord := Cursor.peekKind_eq_some_iff.2 ⟨mark, ts, hr, hm⟩
  have starts : StartsOperand (words ts) ↔
      c.advance.peekKind = some .identifier ∨ c.advance.peekKind = some .openParen := by
    rw [startsOperand_iff, Cursor.peekKind_eq, Cursor.advance_eq hr]
  by_cases start : StartsOperand (words ts)
  · rw [readOperand_not hk (starts.1 start), Reply.yields_since_iff, Reply.yields_map_iff]
    simp [start, @eq_comm _ p, and_comm]
  · obtain ⟨noName, noParen⟩ := not_or.1 (mt starts.2 start)
    rw [readOperand_notRest hk noName noParen, Reply.yields_since_iff, Reply.yields_map_iff]
    simp [start, @eq_comm _ p, and_comm]

/-- The first word of an operand says which of the forms it has. -/
theorem derivesOperand_cons_iff {w : String} {ws : List String} {next : Option TokenKind}
    {p : Premise} :
    DerivesOperand (w :: ws) next p ↔
      (TokenKind.ofText w = .identifier ∧ ∃ q, p = .is q ∧ DerivesProposition (w :: ws) q) ∨
      (TokenKind.ofText w = .openParen ∧ ∃ us last, ws = us ++ [last] ∧
        TokenKind.ofText last = .closeParen ∧ DerivesPremise us (some .closeParen) p) ∨
      (TokenKind.ofText w = .notWord ∧ ∃ q, p = .not q ∧
        ((StartsOperand ws ∧ DerivesOperand ws next q) ∨
          (¬ StartsOperand ws ∧ DerivesPremise ws next q))) := by
  constructor
  · intro h
    cases h with
    | @is _ _ q h => exact .inl ⟨by cases h with | mk hn => exact hn, q, rfl, h⟩
    | group hf inner hl => exact .inr (.inl ⟨hf, _, _, rfl, hl, inner⟩)
    | not hm h start => exact .inr (.inr ⟨hm, _, rfl, .inl ⟨start, h⟩⟩)
    | notRest hm h other => exact .inr (.inr ⟨hm, _, rfl, .inr ⟨other, h⟩⟩)
  · rintro (⟨-, q, rfl, h⟩ | ⟨hf, us, last, rfl, hl, h⟩ | ⟨hm, q, rfl, ⟨start, h⟩ | ⟨other, h⟩⟩)
    · exact .is h
    · exact .group hf h hl
    · exact .not hm h start
    · exact .notRest hm h other

/-- An operand taken off some tokens starts with the first of them. -/
theorem takes_operand_cons_iff {mark : Token} {ts rest : List Token} {p : Premise} :
    Takes (DerivesOperand · (nextKind rest)) (mark :: ts) p rest ↔
      ∃ us, ts = us ++ rest ∧ DerivesOperand (mark.text :: words us) (nextKind rest) p := by
  constructor
  · rintro ⟨used, hu, h⟩
    cases used with
    | nil => exact absurd rfl h.ne_nil
    | cons t us =>
      obtain ⟨rfl, rfl⟩ := List.cons.inj hu
      exact ⟨us, rfl, h⟩
  · rintro ⟨us, rfl, h⟩
    exact ⟨mark :: us, rfl, h⟩

/-- A negation is read as it is derived. Which of its two forms it has is decided by the word behind
`NOT`. -/
theorem recognizes_negation {c : Cursor} {mark : Token} {ts : List Token}
    (hr : c.rest = mark :: ts) (hm : mark.kind = .notWord)
    (operand : StartsOperand (words ts) → RecognizesPremise readOperand DerivesOperand c.advance)
    (premise : ¬ StartsOperand (words ts) →
      RecognizesPremise readPremise DerivesPremise c.advance) :
    RecognizesPremise readOperand DerivesOperand c := by
  intro p rest
  have ha : c.advance.rest = ts := by simp [Cursor.advance, hr]
  have hk : TokenKind.ofText mark.text = .notWord := hm
  rw [readOperand_notWord hr hm, hr, takes_operand_cons_iff]
  simp only [derivesOperand_cons_iff, hk, reduceCtorEq, false_and, false_or, true_and]
  constructor
  · rintro ⟨q, rfl, ⟨start, h⟩ | ⟨other, h⟩⟩
    · obtain ⟨us, hu, hd⟩ := (operand start q rest).1 h
      rw [ha] at hu
      subst hu
      exact ⟨us, rfl, q, rfl, .inl ⟨(startsOperand_append_iff hd.ne_nil).1 start, hd⟩⟩
    · obtain ⟨us, hu, hd⟩ := (premise other q rest).1 h
      rw [ha] at hu
      subst hu
      exact ⟨us, rfl, q, rfl, .inr ⟨(startsOperand_append_iff hd.ne_nil).not.1 other, hd⟩⟩
  · rintro ⟨us, rfl, q, rfl, ⟨start, h⟩ | ⟨other, h⟩⟩
    · have start' : StartsOperand (words (us ++ rest)) :=
        (startsOperand_append_iff h.ne_nil).2 start
      exact ⟨q, rfl, .inl ⟨start', (operand start' q rest).2 ⟨us, ha, h⟩⟩⟩
    · have other' : ¬ StartsOperand (words (us ++ rest)) :=
        (startsOperand_append_iff h.ne_nil).not.2 other
      exact ⟨q, rfl, .inr ⟨other', (premise other' q rest).2 ⟨us, ha, h⟩⟩⟩

/-- A premise in parentheses is read as it is derived. -/
theorem recognizes_group {c : Cursor} {mark : Token} {ts : List Token}
    (hr : c.rest = mark :: ts) (hm : mark.kind = .openParen)
    (premise : RecognizesPremise readPremise DerivesPremise c.advance) :
    RecognizesPremise readOperand DerivesOperand c := by
  intro p rest
  have ha : c.advance.rest = ts := by simp [Cursor.advance, hr]
  have hk : TokenKind.ofText mark.text = .openParen := hm
  have hp : c.peekKind = some .openParen := Cursor.peekKind_eq_some_iff.2 ⟨mark, ts, hr, hm⟩
  rw [hr, takes_operand_cons_iff, readOperand_group hp]
  simp only [Reply.yields_since_iff, Reply.yields_andThen_iff, Reply.yields_map_iff,
    Reading.yields_expect_iff, derivesOperand_cons_iff, hk, reduceCtorEq, false_and, false_or,
    true_and, or_false]
  constructor
  · rintro ⟨q, hq, last, ⟨hl, hc⟩, rfl⟩
    obtain ⟨us, hu, h⟩ := (premise _ _).1 hq
    rw [ha] at hu
    rw [hl, nextKind_cons, hc] at h
    exact ⟨us ++ [last], by simp [hu, hl], words us, last.text, by simp, hc, h⟩
  · rintro ⟨us, rfl, vs, last, hv, hl, h⟩
    obtain ⟨ts, ls, rfl, rfl, hs⟩ := words_eq_append hv
    obtain ⟨t, _, rfl, rfl, he⟩ := words_eq_cons hs
    obtain rfl := List.map_eq_nil_iff.1 he
    obtain ⟨hv, hn⟩ := (premise p (t :: rest)).2 ⟨ts, by simp [ha], by
      rw [nextKind_cons, show t.kind = .closeParen from hl]; exact h⟩
    exact ⟨p, ⟨hv, rfl⟩, t, ⟨hn, hl⟩, rfl⟩

theorem recognizes_proposition {c : Cursor} (noNot : c.peekKind ≠ some .notWord)
    (noParen : c.peekKind ≠ some .openParen) :
    RecognizesPremise readOperand DerivesOperand c := by
  intro p rest
  rw [readOperand_proposition noNot noParen, Reply.yields_map_iff]
  simp only [yields_readProposition_iff]
  constructor
  · rintro ⟨q, ⟨used, hu, h⟩, rfl⟩
    exact ⟨used, hu, .is h⟩
  · intro h
    cases hr : c.rest with
    | nil =>
      obtain ⟨used, hu, h⟩ := h
      rw [hr] at hu
      obtain ⟨rfl, -⟩ := List.append_eq_nil_iff.1 hu.symm
      exact absurd rfl h.ne_nil
    | cons mark ts =>
      rw [Cursor.peekKind_eq, hr, nextKind_cons, ne_eq, Option.some.injEq] at noNot noParen
      rw [hr, takes_operand_cons_iff] at h
      obtain ⟨us, rfl, h⟩ := h
      rcases derivesOperand_cons_iff.1 h with ⟨-, q, rfl, hq⟩ | ⟨hk, -⟩ | ⟨hk, -⟩
      · exact ⟨q, ⟨mark :: us, by simp, hq⟩, rfl⟩
      · exact absurd hk noParen
      · exact absurd hk noNot

/-- What is read as a premise or as an operand is what the grammar derives as one. -/
theorem recognizes_readPremise_readOperand :
    (∀ c, RecognizesPremise readPremise DerivesPremise c) ∧
      ∀ c, RecognizesPremise readOperand DerivesOperand c := by
  apply readPremise_induction
  case premise => exact fun c operand behindAnd behindOr =>
    recognizes_premise operand behindAnd behindOr
  case negatedOperand =>
    intro c hn start operand
    obtain ⟨mark, ts, hr, hm⟩ := Cursor.peekKind_eq_some_iff.1 hn
    have ha : c.advance.rest = ts := by simp [Cursor.advance, hr]
    refine recognizes_negation hr hm (fun _ => operand) fun other => absurd ?_ other
    rwa [startsOperand_iff, ← ha, ← Cursor.peekKind_eq]
  case negatedPremise =>
    intro c hn noName noParen premise
    obtain ⟨mark, ts, hr, hm⟩ := Cursor.peekKind_eq_some_iff.1 hn
    have ha : c.advance.rest = ts := by simp [Cursor.advance, hr]
    refine recognizes_negation hr hm (fun start => ?_) fun _ => premise
    rw [startsOperand_iff, ← ha, ← Cursor.peekKind_eq] at start
    exact absurd start (not_or.2 ⟨noName, noParen⟩)
  case group =>
    intro c hp premise
    obtain ⟨mark, ts, hr, hm⟩ := Cursor.peekKind_eq_some_iff.1 hp
    exact recognizes_group hr hm premise
  case proposition => exact fun c noNot noParen => recognizes_proposition noNot noParen

theorem yields_readPremise_iff {c : Cursor} {p : Premise} {rest : List Token} :
    (readPremise c).Yields p rest ↔
      Takes (DerivesPremise · (nextKind rest)) c.rest p rest :=
  recognizes_readPremise_readOperand.1 c p rest

/-! ## Fuzzy sets -/

variable {α : Type} [Scalar α]

theorem yields_number_iff {problem : Problem} {c : Cursor} {x : α} {rest : List Token} :
    (Reading.number problem c).Yields x rest ↔
      ∃ t, c.rest = t :: rest ∧ DerivesNumber t.text x := by
  unfold Reading.number
  rw [Reading.yields_expect_bind_iff]
  constructor
  · rintro ⟨t, ts, hr, hk, h⟩
    cases hn : Numeral.read? t.text with
    | none => simp [hn] at h
    | some n =>
      simp only [hn, Reading.yields_pure_iff] at h
      obtain ⟨rfl, rfl⟩ := h
      exact ⟨t, hr, .mk hk hn⟩
  · rintro ⟨t, hr, ⟨hk, hn⟩⟩
    exact ⟨t, rest, hr, hk, by simp [hn]⟩

theorem derivesNumbers_nil_iff {ws : List String} :
    DerivesNumbers ws ([] : List α) ↔ ws = [] := by
  constructor
  · intro h
    generalize hx : ([] : List α) = xs at h
    cases h with
    | nil => rfl
    | first | snoc => simp at hx
  · rintro rfl
    exact .nil

/-- Numbers are derived from the last one and what stands before it. -/
theorem derivesNumbers_concat_iff {ws : List String} {xs : List α} {x : α} :
    DerivesNumbers ws (xs ++ [x]) ↔
      ∃ w, DerivesNumber w x ∧ ((xs = [] ∧ ws = [w]) ∨ (xs ≠ [] ∧ ∃ us comma,
        ws = us ++ [comma, w] ∧ DerivesNumbers us xs ∧ TokenKind.ofText comma = .comma)) := by
  constructor
  · intro h
    generalize hy : xs ++ [x] = ys at h
    cases h with
    | nil => simp at hy
    | @first w y number =>
      obtain ⟨rfl, rfl⟩ : xs = [] ∧ x = y := by simpa [List.append_eq_singleton_iff] using hy
      exact ⟨w, number, .inl ⟨rfl, rfl⟩⟩
    | @snoc us zs comma w y before some hc number =>
      obtain ⟨rfl, rfl⟩ := List.concat_inj.1 (by simpa using hy)
      exact ⟨w, number, .inr ⟨some, us, comma, rfl, before, hc⟩⟩
  · rintro ⟨w, number, ⟨rfl, rfl⟩ | ⟨nonempty, us, comma, rfl, before, hc⟩⟩
    · exact .first number
    · exact .snoc before nonempty hc number

theorem takes_numbers_nil_iff {tokens rest : List Token} :
    Takes DerivesNumbers tokens ([] : List α) rest ↔ tokens = rest := by
  constructor
  · rintro ⟨used, hu, h⟩
    obtain rfl := List.map_eq_nil_iff.1 (derivesNumbers_nil_iff.1 h)
    exact hu
  · rintro rfl
    exact ⟨[], rfl, .nil⟩

/-- Numbers are taken off tokens one by one, with a comma in front of each but the first. -/
theorem takes_numbers_concat_iff {tokens rest : List Token} {xs : List α} {x : α} :
    Takes DerivesNumbers tokens (xs ++ [x]) rest ↔
      ∃ t, DerivesNumber t.text x ∧
        ((xs = [] ∧ Takes DerivesNumbers tokens xs (t :: rest)) ∨
          (xs ≠ [] ∧ ∃ comma, comma.kind = .comma ∧
            Takes DerivesNumbers tokens xs (comma :: t :: rest))) := by
  constructor
  · rintro ⟨used, rfl, h⟩
    obtain ⟨w, number, ⟨rfl, hw⟩ | ⟨nonempty, us, comma, hw, before, hc⟩⟩ :=
      derivesNumbers_concat_iff.1 h
    · obtain ⟨t, _, rfl, rfl, he⟩ := words_eq_cons hw
      obtain rfl := List.map_eq_nil_iff.1 he
      exact ⟨t, number, .inl ⟨rfl, [], rfl, .nil⟩⟩
    · obtain ⟨ts, vs, rfl, rfl, hs⟩ := words_eq_append hw
      obtain ⟨mark, _, rfl, rfl, hs'⟩ := words_eq_cons hs
      obtain ⟨t, _, rfl, rfl, he⟩ := words_eq_cons hs'
      obtain rfl := List.map_eq_nil_iff.1 he
      exact ⟨t, number, .inr ⟨nonempty, mark, hc, ts, by simp, before⟩⟩
  · rintro ⟨t, number, ⟨rfl, h⟩ | ⟨nonempty, comma, hc, ts, hu, before⟩⟩
    · rw [takes_numbers_nil_iff.1 h]
      exact ⟨[t], rfl, derivesNumbers_concat_iff.2 ⟨t.text, number, .inl ⟨rfl, rfl⟩⟩⟩
    · refine ⟨ts ++ [comma, t], by simpa using hu, derivesNumbers_concat_iff.2 ⟨t.text, number, ?_⟩⟩
      exact .inr ⟨nonempty, words ts, comma.text, by simp, before, hc⟩

theorem yields_pushed_iff {problem : Problem} {n : Nat} {c : Cursor} {v : Vector α n}
    {xs : Vector α (n + 1)} {rest : List Token} :
    ((do let x ← Reading.number problem; pure (v.push x) : Reading (Vector α (n + 1))) c).Yields
        xs rest ↔
      ∃ t x, c.rest = t :: rest ∧ DerivesNumber t.text x ∧ v.push x = xs := by
  rw [Reading.yields_bind_iff]
  constructor
  · rintro ⟨x, hx, h⟩
    obtain ⟨rfl, hr⟩ := Reading.yields_pure_iff.1 h
    obtain ⟨t, ht, number⟩ := yields_number_iff.1 hx
    exact ⟨t, x, hr ▸ ht, number, rfl⟩
  · rintro ⟨t, x, hr, number, rfl⟩
    obtain ⟨hv, hn⟩ := yields_number_iff.2 ⟨t, hr, number⟩
    exact ⟨x, ⟨hv, rfl⟩, Reading.yields_pure_iff.2 ⟨rfl, hn⟩⟩

/-- Numbers are read one by one, with a comma in front of each but the first. -/
theorem yields_numbers_succ_iff {function : String} {n : Nat} {c : Cursor} {ys : Vector α n}
    {y : α} {rest : List Token} :
    (Reading.numbers function (n + 1) c).Yields (ys.push y) rest ↔
      ∃ t, DerivesNumber t.text y ∧
        ((¬ 0 < n ∧ (Reading.numbers function n c).Yields ys (t :: rest)) ∨
          (0 < n ∧ ∃ comma : Token, comma.kind = .comma ∧
            (Reading.numbers function n c).Yields ys (comma :: t :: rest))) := by
  rw [Reading.numbers.eq_def, Reading.yields_bind_iff]
  constructor
  · rintro ⟨v, hv, h⟩
    split_ifs at h with hn
    · obtain ⟨comma, _, hr, hc, h⟩ := Reading.yields_expect_bind_iff.1 h
      obtain ⟨t, x, rfl, number, hx⟩ := yields_pushed_iff.1 h
      obtain ⟨rfl, rfl⟩ := Vector.push_eq_push.1 hx
      exact ⟨t, number, .inr ⟨hn, comma, hc, hr ▸ hv⟩⟩
    · obtain ⟨t, x, hr, number, hx⟩ := yields_pushed_iff.1 h
      obtain ⟨rfl, rfl⟩ := Vector.push_eq_push.1 hx
      exact ⟨t, number, .inl ⟨hn, hr ▸ hv⟩⟩
  · rintro ⟨t, number, ⟨hn, hv, hr⟩ | ⟨hn, comma, hc, hv, hr⟩⟩
    · refine ⟨ys, ⟨hv, rfl⟩, ?_⟩
      rw [if_neg hn]
      exact yields_pushed_iff.2 ⟨t, y, hr, number, rfl⟩
    · refine ⟨ys, ⟨hv, rfl⟩, ?_⟩
      rw [if_pos hn]
      exact Reading.yields_expect_bind_iff.2
        ⟨comma, t :: rest, hr, hc, yields_pushed_iff.2 ⟨t, y, rfl, number, rfl⟩⟩

theorem yields_numbers_iff {function : String} {n : Nat} {c : Cursor} {xs : Vector α n}
    {rest : List Token} :
    (Reading.numbers function n c).Yields xs rest ↔ Takes DerivesNumbers c.rest xs.toList rest := by
  induction n generalizing rest with
  | zero =>
    obtain rfl : xs = #v[] := by simp
    rw [Reading.numbers, Reading.yields_pure_iff]
    exact (and_iff_right rfl).trans takes_numbers_nil_iff.symm
  | succ n ih =>
    obtain ⟨ys, y, rfl⟩ : ∃ (ys : Vector α n) (y : α), xs = ys.push y := ⟨xs.pop, xs.back, by simp⟩
    have empty : ys.toList = [] ↔ ¬ 0 < n := by simp [← List.length_eq_zero_iff]
    rw [yields_numbers_succ_iff, Vector.toList_push, takes_numbers_concat_iff]
    simp only [ih, empty, ne_eq, not_not]

theorem yields_arguments_iff {function : String} {n : Nat} {c : Cursor} {xs : Vector α n}
    {rest : List Token} :
    (Reading.arguments function n c).Yields xs rest ↔
      Takes DerivesArguments c.rest xs.toList rest := by
  unfold Reading.arguments
  rw [Reading.yields_expect_bind_iff]
  constructor
  · rintro ⟨first, ts, hr, hf, h⟩
    obtain ⟨v, hv, h⟩ := Reading.yields_bind_iff.1 h
    obtain ⟨last, vs, hl, hk, h⟩ := Reading.yields_expect_bind_iff.1 h
    obtain ⟨rfl, rfl⟩ := Reading.yields_pure_iff.1 h
    obtain ⟨us, hu, numbers⟩ := yields_numbers_iff.1 hv
    refine ⟨first :: (us ++ [last]), ?_, by simpa using .mk hf numbers hk⟩
    rw [hr, show ts = us ++ _ from hu, hl]
    simp
  · rintro ⟨used, hu, h⟩
    generalize hw : words used = ws at h
    cases h with
    | mk hf numbers hl =>
      obtain ⟨first, _, rfl, rfl, hs⟩ := words_eq_cons hw
      obtain ⟨us, last, rfl, rfl, rfl⟩ := words_eq_concat hs
      refine ⟨first, us ++ last :: rest, by simpa using hu, hf, ?_⟩
      have hy : (Reading.numbers function n { c with rest := us ++ last :: rest }).Yields xs
          (last :: rest) := yields_numbers_iff.2 ⟨us, rfl, numbers⟩
      obtain ⟨hv, hn⟩ := hy
      refine Reading.yields_bind_iff.2 ⟨xs, ⟨hv, rfl⟩, ?_⟩
      exact Reading.yields_expect_bind_iff.2
        ⟨last, rest, hn, hl, Reading.yields_pure_iff.2 ⟨rfl, rfl⟩⟩

theorem makes_linear_iff {make : Vector α 2 → FuzzySet α} (hm : ∀ a b, make #v[a, b] = .ramp a b)
    {xs : List α} {m : FuzzySet α} :
    Makes .linear xs m ↔ ∃ v : Vector α 2, v.toList = xs ∧ make v = m := by
  constructor
  · intro h
    cases h with
    | linear a b => exact ⟨#v[a, b], rfl, hm a b⟩
  · rintro ⟨v, rfl, rfl⟩
    match v with
    | ⟨⟨[a, b]⟩, _⟩ =>
      rw [hm a b]
      exact .linear a b

theorem makes_triangular_iff {make : Vector α 3 → FuzzySet α}
    (hm : ∀ a b c, make #v[a, b, c] = .triangular a b c) {xs : List α} {m : FuzzySet α} :
    Makes .triangular xs m ↔ ∃ v : Vector α 3, v.toList = xs ∧ make v = m := by
  constructor
  · intro h
    cases h with
    | triangular a b c => exact ⟨#v[a, b, c], rfl, hm a b c⟩
  · rintro ⟨v, rfl, rfl⟩
    match v with
    | ⟨⟨[a, b, c]⟩, _⟩ =>
      rw [hm a b c]
      exact .triangular a b c

theorem makes_trapezoid_iff {make : Vector α 4 → FuzzySet α}
    (hm : ∀ a b c d, make #v[a, b, c, d] = .trapezoid a b c d) {xs : List α} {m : FuzzySet α} :
    Makes .trapezoid xs m ↔ ∃ v : Vector α 4, v.toList = xs ∧ make v = m := by
  constructor
  · intro h
    cases h with
    | trapezoid a b c d => exact ⟨#v[a, b, c, d], rfl, hm a b c d⟩
  · rintro ⟨v, rfl, rfl⟩
    match v with
    | ⟨⟨[a, b, c, d]⟩, _⟩ =>
      rw [hm a b c d]
      exact .trapezoid a b c d

theorem not_makes_inverted {xs : List α} {m : FuzzySet α} : ¬ Makes .inverted xs m := nofun

/-- The name of a function says what stands behind it. -/
theorem derivesFuzzySet_cons_iff {f : BuiltIn} {name : String}
    (hn : TokenKind.ofText name = f.kind) {ws : List String} {m : FuzzySet α} :
    DerivesFuzzySet (name :: ws) m ↔
      (∃ xs, DerivesArguments ws xs ∧ Makes f xs m) ∨
      (f = .inverted ∧ ∃ first us last k, ws = first :: (us ++ [last]) ∧
        TokenKind.ofText first = .openParen ∧ DerivesFuzzySet us k ∧
        TokenKind.ofText last = .closeParen ∧ .inverted k = m) := by
  constructor
  · intro h
    cases h with
    | call hg arguments made =>
      obtain rfl := BuiltIn.kind_injective (hn.symm.trans hg)
      exact .inl ⟨_, arguments, made⟩
    | inverted hg hf inner hl =>
      have hk : f.kind = BuiltIn.inverted.kind := hn.symm.trans hg
      exact .inr ⟨BuiltIn.kind_injective hk, _, _, _, _, rfl, hf, inner, hl, rfl⟩
  · rintro (⟨xs, arguments, made⟩ | ⟨rfl, first, us, last, k, rfl, hf, inner, hl, rfl⟩)
    · exact .call hn arguments made
    · exact .inverted hn hf inner hl

/-- The numbers of a function are read as they are derived, and `make` puts them together. -/
theorem yields_call_iff {f : BuiltIn} {n : Nat} {make : Vector α n → FuzzySet α}
    (makes : ∀ {xs m}, Makes f xs m ↔ ∃ v : Vector α n, v.toList = xs ∧ make v = m)
    {function : String} {c : Cursor} {m : FuzzySet α} {rest : List Token} :
    ((Reading.arguments function n c).map make).Yields m rest ↔
      Takes (fun ws m => ∃ xs, DerivesArguments ws xs ∧ Makes f xs m) c.rest m rest := by
  rw [Reply.yields_map_iff]
  constructor
  · rintro ⟨v, hv, rfl⟩
    obtain ⟨used, hu, arguments⟩ := yields_arguments_iff.1 hv
    exact ⟨used, hu, v.toList, arguments, makes.2 ⟨v, rfl, rfl⟩⟩
  · rintro ⟨used, hu, xs, arguments, made⟩
    obtain ⟨v, rfl, rfl⟩ := makes.1 made
    exact ⟨v, yields_arguments_iff.2 ⟨used, hu, arguments⟩, rfl⟩

theorem yields_readInverted_iff {c : Cursor}
    {operand : (d : Cursor) → d.Follows c → Reply d (FuzzySet α)}
    (inner : ∀ d later m rest,
      (operand d later).Yields m rest ↔ Takes DerivesFuzzySet d.rest m rest)
    {m : FuzzySet α} {rest : List Token} :
    (BuiltIn.readInverted c operand).Yields m rest ↔
      Takes (fun ws m => ∃ first us last k, ws = first :: (us ++ [last]) ∧
        TokenKind.ofText first = .openParen ∧ DerivesFuzzySet us k ∧
        TokenKind.ofText last = .closeParen ∧ .inverted k = m) c.rest m rest := by
  unfold BuiltIn.readInverted
  simp only [Reply.yields_andThen_iff, Reply.yields_map_iff, Reading.yields_expect_iff, inner]
  constructor
  · rintro ⟨first, ⟨hr, hf⟩, k, ⟨us, hu, hk⟩, last, ⟨hl, hc⟩, rfl⟩
    refine ⟨first :: (us ++ [last]), by simp [hr, hu, hl], first.text, words us, last.text, k, ?_⟩
    exact ⟨by simp, hf, hk, hc, rfl⟩
  · rintro ⟨used, hu, first, ws, last, k, hw, hf, hk, hl, rfl⟩
    obtain ⟨t, _, rfl, rfl, hs⟩ := words_eq_cons hw
    obtain ⟨us, u, rfl, rfl, rfl⟩ := words_eq_concat hs
    have hfirst : (Reading.expect .openParen (.unopenedArguments BuiltIn.inverted.name) c).Yields t
        (us ++ u :: rest) := Reading.yields_expect_iff.2 ⟨by simpa using hu, hf⟩
    obtain ⟨hv, hn⟩ := hfirst
    have hinner : Takes DerivesFuzzySet (us ++ u :: rest) k (u :: rest) := ⟨us, rfl, hk⟩
    rw [← hn] at hinner
    obtain ⟨hv', hn'⟩ := (inner _ (Reply.forward _) _ _).2 hinner
    refine ⟨t, ⟨by rw [hn]; simpa using hu, hf⟩, k, ?_, u, ⟨hn', hl⟩, rfl⟩
    rw [hn']
    exact hinner

/-- The name of a function is read, and `operand` reads the sets inside. -/
theorem yields_reader_iff {f : BuiltIn} {c : Cursor}
    {operand : (d : Cursor) → d.Follows c → Reply d (FuzzySet α)}
    (inner : ∀ d later m rest,
      (operand d later).Yields m rest ↔ Takes DerivesFuzzySet d.rest m rest)
    {name : String} (hn : TokenKind.ofText name = f.kind) {m : FuzzySet α} {rest : List Token} :
    (f.reader c operand).Yields m rest ↔
      Takes (fun ws m => DerivesFuzzySet (name :: ws) m) c.rest m rest := by
  simp only [derivesFuzzySet_cons_iff hn]
  cases f with
  | linear =>
    simp only [reduceCtorEq, false_and, or_false]
    exact yields_call_iff (makes_linear_iff fun _ _ => rfl)
  | triangular =>
    simp only [reduceCtorEq, false_and, or_false]
    exact yields_call_iff (makes_triangular_iff fun _ _ _ => rfl)
  | trapezoid =>
    simp only [reduceCtorEq, false_and, or_false]
    exact yields_call_iff (makes_trapezoid_iff fun _ _ _ _ => rfl)
  | inverted =>
    simp only [not_makes_inverted, and_false, exists_false, false_or, true_and]
    exact yields_readInverted_iff inner

theorem Grammar.DerivesFuzzySet.exists_name {ws : List String} {m : FuzzySet α}
    (h : DerivesFuzzySet ws m) :
    ∃ (f : BuiltIn) (name : String) (us : List String),
      ws = name :: us ∧ TokenKind.ofText name = f.kind := by
  cases h with
  | @call f name us _ _ hn => exact ⟨f, name, us, rfl, hn⟩
  | inverted hn => exact ⟨.inverted, _, _, rfl, hn⟩

omit [Scalar α] in
theorem readFuzzySet_cons {table : FunctionTable α} {c : Cursor} {name : Token} {ts : List Token}
    (hr : c.rest = name :: ts) {m : FuzzySet α} {rest : List Token} :
    (readFuzzySet table c).Yields m rest ↔
      ∃ reader, table.find? name.text = some reader ∧
        (reader c.advance fun d _ => readFuzzySet table d).Yields m rest := by
  cases found : table.find? name.text with
  | none => simp [readFuzzySet_unknown hr found]
  | some reader => simp [readFuzzySet_known hr found]

theorem yields_readFuzzySet_iff {c : Cursor} {m : FuzzySet α} {rest : List Token} :
    (readFuzzySet .standard c).Yields m rest ↔ Takes DerivesFuzzySet c.rest m rest := by
  induction hl : c.rest.length using Nat.strongRecOn generalizing c m rest with
  | ind n ih =>
    cases hr : c.rest with
    | nil =>
      rw [readFuzzySet_nil hr]
      constructor
      · intro h
        exact absurd h Reply.not_yields_error
      · rintro ⟨used, hu, h⟩
        obtain ⟨rfl, -⟩ := List.append_eq_nil_iff.1 hu.symm
        obtain ⟨f, name, us, hw, -⟩ := h.exists_name
        cases hw
    | cons name ts =>
      have ha : c.advance.rest = ts := by simp [Cursor.advance, hr]
      have shorter (d : Cursor) (later : d.Follows c.advance) : d.rest.length < n :=
        hl ▸ later.length_lt (by simp [hr])
      rw [readFuzzySet_cons hr]
      constructor
      · rintro ⟨reader, found, h⟩
        obtain ⟨f, hn, rfl⟩ := FunctionTable.find?_standard_iff.1 found
        obtain ⟨us, hu, hd⟩ :=
          (yields_reader_iff (fun d later m rest => ih _ (shorter d later) rfl) hn).1 h
        exact ⟨name :: us, by rw [← ha, hu]; rfl, hd⟩
      · rintro ⟨used, hu, h⟩
        obtain ⟨f, w, us, hw, hn⟩ := h.exists_name
        obtain ⟨t, us, rfl, rfl, rfl⟩ := words_eq_cons hw
        obtain ⟨rfl, rfl⟩ := List.cons.inj hu
        refine ⟨f.reader, FunctionTable.find?_standard_iff.2 ⟨f, hn, rfl⟩, ?_⟩
        exact (yields_reader_iff (fun d later m rest => ih _ (shorter d later) rfl) hn).2
          ⟨us, ha, h⟩

end FuzzyInference
