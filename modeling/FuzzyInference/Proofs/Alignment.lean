import FuzzyInference.Proofs.Attempts
import FuzzyInference.Proofs.Vocabulary
import Mathlib.Data.List.Forall2

/-!
# Two sources side by side

A source is read next to another one that has corresponding tokens and, behind them, further
statements.

* `Correspondence`: how the words and the places of the two sources correspond, and what stands
  behind the second one;
* `Correspondence.Aligned`: two cursors at the same point;
* `Correspondence.Sealed`: what is left of the first source ends in a semicolon, or nothing stands
  behind the second one. From such a cursor no statement comes to the end of its source;
* `Correspondence.Matches`: what came of reading at the two cursors. Only a function name that is
  missing at the end of the first source makes the second reading run on: it takes the word behind
  for the name.
-/

namespace FuzzyInference

def TokenKind.OpensStatement (kind : TokenKind) : Prop :=
  kind = .ifWord ∨ kind = .defineWord

instance (kind : TokenKind) : Decidable kind.OpensStatement :=
  inferInstanceAs (Decidable (_ ∨ _))

structure Correspondence where
  place : Position → Position → Prop
  word : String → String → Prop
  upper : ∀ {x y}, word x y → x.toUpper = y.toUpper
  name : ∀ {x y}, word x y → TokenKind.ofText x = .identifier → x = y
  column : ∀ {p q} (n : Nat), place p q →
    place { p with column := p.column + n } { q with column := q.column + n }
  /-- What stands behind the second source. -/
  further : List Token
  starts : ∀ {t}, further.head? = some t → t.kind.OpensStatement

namespace Correspondence

variable (R : Correspondence)

structure Alike (t u : Token) : Prop where
  word : R.word t.text u.text
  place : R.place t.position u.position

structure Aligned (c d : Cursor) : Prop where
  rest : ∃ us, List.Forall₂ R.Alike c.rest us ∧ d.rest = us ++ R.further
  endPosition : R.further = [] → R.place c.endPosition d.endPosition

/-- A cursor from which no statement comes to the end of the first source. -/
def Sealed (c : Cursor) : Prop :=
  R.further = [] ∨ c.rest.getLast?.map (·.kind) = some .semicolon

/-- The same problem, up to the case of reserved words. -/
inductive SameProblem : Problem → Problem → Prop
  | refl (p : Problem) : SameProblem p p
  | statement {x y : String} (h : R.word x y) :
      SameProblem (.unknownStatement x) (.unknownStatement y)
  | function {x y : String} (h : R.word x y) :
      SameProblem (.unknownFunction x) (.unknownFunction y)

structure SameError (e f : ParseError) : Prop where
  problem : R.SameProblem e.problem f.problem
  place : R.place e.position f.position

variable {R}

theorem SameProblem.eq {p q : Problem} (h : R.SameProblem p q)
    (words : ∀ x y, R.word x y → x = y) : p = q := by
  cases h with
  | refl => rfl
  | statement word => rw [words _ _ word]
  | function word => rw [words _ _ word]

theorem Alike.kind_eq {t u : Token} (h : R.Alike t u) : t.kind = u.kind :=
  TokenKind.ofText_congr (R.upper h.word)

theorem Alike.text_eq {t u : Token} (h : R.Alike t u) (hk : t.kind = .identifier) :
    t.text = u.text := R.name h.word hk

theorem Alike.placeBehind {t u : Token} (h : R.Alike t u)
    (hk : t.kind = .identifier) : R.place t.placeBehind u.placeBehind := by
  have moved := R.column (t.text.length + 1) h.place
  rw [Token.placeBehind, Token.placeBehind, ← h.text_eq hk]
  exact moved

namespace Aligned

variable {c d : Cursor}

/-- Either both sources have a next token, or the first one is at its end. -/
theorem cases (h : R.Aligned c d) :
    (c.rest = [] ∧ d.rest = R.further) ∨
      ∃ t ts u us, c.rest = t :: ts ∧ d.rest = u :: us ∧ R.Alike t u ∧
        R.Aligned { c with rest := ts } { d with rest := us } := by
  obtain ⟨us, tokens, hd⟩ := h.rest
  cases hc : c.rest with
  | nil =>
    rw [hc] at tokens
    cases tokens
    exact .inl ⟨rfl, hd⟩
  | cons t ts =>
    rw [hc] at tokens
    cases tokens with
    | @cons _ u _ us first others =>
      exact .inr ⟨t, ts, u, us ++ R.further, rfl, hd, first, ⟨us, others, rfl⟩, h.endPosition⟩

theorem advance (h : R.Aligned c d) {kind : TokenKind} (hk : c.peekKind = some kind) :
    R.Aligned c.advance d.advance := by
  rcases h.cases with ⟨hc, -⟩ | ⟨t, ts, u, us, hc, hd, -, next⟩
  · rw [Cursor.peekKind_eq, hc] at hk
    cases hk
  · rw [Cursor.advance_eq hc, Cursor.advance_eq hd]
    exact next

/-- The next words are of the same kind, or the first source is at its end. -/
theorem peekKind_cases (h : R.Aligned c d) :
    c.peekKind = d.peekKind ∨
      (c.rest = [] ∧ R.further ≠ [] ∧ ∃ kind, d.peekKind = some kind ∧ kind.OpensStatement) := by
  rw [Cursor.peekKind_eq, Cursor.peekKind_eq]
  rcases h.cases with ⟨hc, hd⟩ | ⟨t, ts, u, us, hc, hd, token, -⟩
  · cases hf : R.further with
    | nil => exact .inl (by rw [hc, hd, hf])
    | cons t ts =>
      refine .inr ⟨hc, by simp, t.kind, by rw [hd, hf]; rfl, ?_⟩
      exact R.starts (by rw [hf]; rfl)
  · exact .inl (by rw [hc, hd, nextKind_cons, nextKind_cons, token.kind_eq])

theorem peekKind_iff (h : R.Aligned c d) {kind : TokenKind} (inside : ¬ kind.OpensStatement) :
    d.peekKind = some kind ↔ c.peekKind = some kind := by
  rcases h.peekKind_cases with same | ⟨hc, -, k, hk, opens⟩
  · rw [same]
  · rw [hk, Cursor.peekKind_eq, hc]
    constructor
    · intro he
      exact absurd (Option.some.inj he ▸ opens) inside
    · intro he
      cases he

theorem peekKind_eq (h : R.Aligned c d) (hs : R.Sealed c) : c.peekKind = d.peekKind := by
  rcases h.peekKind_cases with same | ⟨hc, token, -⟩
  · exact same
  · rcases hs with alone | last
    · contradiction
    · simp [hc] at last

theorem position (h : R.Aligned c d) (hs : R.Sealed c) : R.place c.position d.position := by
  rcases h.cases with ⟨hc, hd⟩ | ⟨t, ts, u, us, hc, hd, token, -⟩
  · rcases hs with alone | last
    · simpa [Cursor.position, Cursor.peek, hc, hd, alone] using h.endPosition alone
    · simp [hc] at last
  · simpa [Cursor.position, Cursor.peek, hc, hd] using token.place

end Aligned

theorem Sealed.tail {c : Cursor} {t : Token} {ts : List Token} (h : R.Sealed c)
    (hc : c.rest = t :: ts) (ht : t.kind ≠ .semicolon) : R.Sealed { c with rest := ts } := by
  rcases h with alone | last
  · exact .inl alone
  · refine .inr ?_
    rw [hc] at last
    cases ts with
    | nil => exact absurd (by simpa using last) ht
    | cons u us => simpa using last

theorem Sealed.advance {c : Cursor} {kind : TokenKind} (h : R.Sealed c)
    (hk : c.peekKind = some kind) (noEnd : kind ≠ .semicolon) : R.Sealed c.advance := by
  obtain ⟨t, ts, hc, ht⟩ := Cursor.peekKind_eq_some_iff.1 hk
  rw [Cursor.advance_eq hc]
  exact h.tail hc (ht ▸ noEnd)

/-! ## Readings -/

variable {β γ δ ε : Type} {c d : Cursor}

/-- What came of reading at two aligned cursors. Where `J` holds of the first one, the errors are
the same, and `K` holds where reading leaves off without any. -/
inductive Matches (J K : Cursor → Prop) (S : β → γ → Prop) (r : Reply c β) (s : Reply d γ) : Prop
  | ok {v : β} {w : γ} (left : r.result = .ok v) (right : s.result = .ok w) (value : S v w)
      (next : R.Aligned r.next s.next) (keeps : J c → K r.next)
  | error {e f : ParseError} (left : r.result = .error e) (right : s.result = .error f)
      (same : J c → R.SameError e f) (plain : R.further = [] ∨ e.problem ≠ .missingFunction)
      (next : R.Aligned r.next s.next)
  | swallowed {e f : ParseError} (left : r.result = .error e) (right : s.result = .error f)
      (awaiting : e.problem = .missingFunction) (unsealed : ¬ J c) (ended : r.next.rest = [])
      (next : s.next.rest = R.further.tail)

namespace Matches

variable {J K L : Cursor → Prop} {S : β → γ → Prop} {T : δ → ε → Prop} {r : Reply c β}
  {s : Reply d γ}

theorem of_ok {v : β} {w : γ} (h : R.Aligned c d) (value : S v w) (keeps : J c → K c) :
    R.Matches J K S (Reply.ok c v) (Reply.ok d w) :=
  .ok rfl rfl value h keeps

theorem of_error {e f : ParseError} (h : R.Aligned c d) (same : J c → R.SameError e f)
    (plain : e.problem ≠ .missingFunction) :
    R.Matches J K S (Reply.error c e) (Reply.error d f) :=
  .error rfl rfl same (.inr plain) h

theorem since {c' d' : Cursor} {hc : c.Follows c'} {hd : d.Follows d'} (h : R.Matches L K S r s)
    (keeps : J c' → L c) : R.Matches J K S (r.since hc) (s.since hd) := by
  cases h with
  | ok left right value next keeps' =>
    exact .ok left right value next fun hj => keeps' (keeps hj)
  | error left right same plain next =>
    exact .error left right (fun hj => same (keeps hj)) plain next
  | swallowed left right awaiting unsealed ended next =>
    exact .swallowed left right awaiting (fun hj => unsealed (keeps hj)) ended next

theorem map (h : R.Matches J K S r s) {f : β → δ} {g : γ → ε}
    (values : ∀ v w, S v w → T (f v) (g w)) : R.Matches J K T (r.map f) (s.map g) := by
  cases h with
  | @ok v w left right value next keeps =>
    refine .ok (v := f v) (w := g w) ?_ ?_ (values v w value) next keeps
    · rw [Reply.map, left, Except.map]
    · rw [Reply.map, right, Except.map]
  | @error e e' left right same plain next =>
    refine .error (e := e) (f := e') ?_ ?_ same plain next
    · rw [Reply.map, left, Except.map]
    · rw [Reply.map, right, Except.map]
  | @swallowed e e' left right awaiting unsealed ended next =>
    refine .swallowed (e := e) (f := e') ?_ ?_ awaiting unsealed ended next
    · rw [Reply.map, left, Except.map]
    · rw [Reply.map, right, Except.map]

theorem andThen {f : β → (c' : Cursor) → c'.Follows c → Reply c' δ}
    {g : γ → (d' : Cursor) → d'.Follows d → Reply d' ε} (h : R.Matches J L S r s)
    (behind : ∀ v w, r.result = .ok v → S v w → R.Aligned r.next s.next →
      R.Matches L K T (f v r.next r.forward) (g w s.next s.forward)) :
    R.Matches J K T (r.andThen f) (s.andThen g) := by
  cases h with
  | @ok v w left right value next keeps =>
    rw [Reply.andThen_ok left, Reply.andThen_ok right]
    exact (behind v w left value next).since keeps
  | @error e e' left right same plain next =>
    rw [Reply.andThen_error left, Reply.andThen_error right]
    exact .error rfl rfl same plain next
  | @swallowed e e' left right awaiting unsealed ended next =>
    rw [Reply.andThen_error left, Reply.andThen_error right]
    exact .swallowed rfl rfl awaiting unsealed ended next

/-- Readings one behind the other match if each of them does. -/
theorem bind {x : Reading β} {y : Reading γ} {f : β → Reading δ} {g : γ → Reading ε}
    (h : R.Matches J L S (x c) (y d))
    (behind : ∀ v w, (x c).result = .ok v → S v w → R.Aligned (x c).next (y d).next →
      R.Matches L K T (f v (x c).next) (g w (y d).next)) :
    R.Matches J K T ((x >>= f) c) ((y >>= g) d) :=
  h.andThen behind

end Matches

/-- Both readings use the token up, or neither does. -/
theorem matches_expectAt_of_keeps {K : Cursor → Prop} {p q : Position} {kind : TokenKind}
    {problem : Problem} (h : R.Aligned c d) (inside : ¬ kind.OpensStatement)
    (plain : problem ≠ .missingFunction) (places : R.Sealed c → R.place p q)
    (keeps : ∀ t ts, c.rest = t :: ts → t.kind = kind → R.Sealed c → K { c with rest := ts }) :
    R.Matches R.Sealed K (fun t u => R.Alike t u ∧ t.kind = kind)
      (Reading.expectAt p kind problem c) (Reading.expectAt q kind problem d) := by
  by_cases hk : c.peekKind = some kind
  · rcases h.cases with ⟨hc, -⟩ | ⟨t, ts, u, us, hc, hd, token, next⟩
    · rw [Cursor.peekKind_eq, hc] at hk
      cases hk
    · have ht : t.kind = kind := by simpa [Cursor.peekKind_eq, hc] using hk
      have hu : u.kind = kind := token.kind_eq ▸ ht
      obtain ⟨left, leftNext⟩ := Reading.expectAt_cons p problem hc ht
      obtain ⟨right, rightNext⟩ := Reading.expectAt_cons q problem hd hu
      refine .ok left right ⟨token, ht⟩ ?_ fun hs => ?_
      · rw [leftNext, rightNext]
        exact next
      · rw [leftNext]
        exact keeps t ts hc ht hs
  · have hk' : d.peekKind ≠ some kind := fun hd => hk ((h.peekKind_iff inside).1 hd)
    rw [Reading.expectAt_error hk, Reading.expectAt_error hk']
    exact .of_error h (fun hs => ⟨.refl problem, places hs⟩) plain

theorem matches_expectAt {p q : Position} {kind : TokenKind} {problem : Problem}
    (h : R.Aligned c d) (inside : ¬ kind.OpensStatement) (noEnd : kind ≠ .semicolon)
    (plain : problem ≠ .missingFunction) (places : R.Sealed c → R.place p q) :
    R.Matches R.Sealed R.Sealed (fun t u => R.Alike t u ∧ t.kind = kind)
      (Reading.expectAt p kind problem c) (Reading.expectAt q kind problem d) :=
  matches_expectAt_of_keeps h inside plain places fun _ _ hc ht hs => hs.tail hc (ht ▸ noEnd)

theorem matches_expect {kind : TokenKind} {problem : Problem} (h : R.Aligned c d)
    (inside : ¬ kind.OpensStatement) (noEnd : kind ≠ .semicolon)
    (plain : problem ≠ .missingFunction) :
    R.Matches R.Sealed R.Sealed (fun t u => R.Alike t u ∧ t.kind = kind)
      (Reading.expect kind problem c) (Reading.expect kind problem d) :=
  matches_expectAt h inside noEnd plain h.position

/-- A semicolon is expected in both sources, also as the last token of the first one. -/
theorem matches_expect_semicolon {problem : Problem} (h : R.Aligned c d)
    (plain : problem ≠ .missingFunction) :
    R.Matches R.Sealed (fun _ => True) (fun t u => R.Alike t u ∧ t.kind = .semicolon)
      (Reading.expect .semicolon problem c) (Reading.expect .semicolon problem d) :=
  matches_expectAt_of_keeps h (by decide) plain h.position fun _ _ _ _ _ => trivial

theorem matches_pure {J : Cursor → Prop} (h : R.Aligned c d) (v : β) :
    R.Matches J J Eq ((pure v : Reading β) c) ((pure v : Reading β) d) :=
  .of_ok h rfl id

theorem matches_readProposition (h : R.Aligned c d) :
    R.Matches R.Sealed R.Sealed Eq (readProposition c) (readProposition d) := by
  unfold readProposition
  refine .bind (matches_expect h (by decide) (by decide) nofun) fun t u _ ⟨variableName, ht⟩ h => ?_
  have place := variableName.placeBehind ht
  refine .bind (matches_expectAt h (by decide) (by decide) nofun fun _ => place) fun _ _ _ _ h => ?_
  refine .bind (matches_expect h (by decide) (by decide) nofun) fun v w _ ⟨term, hv⟩ h => ?_
  rw [← variableName.text_eq ht, ← term.text_eq hv]
  exact matches_pure h _

/-! ## Numbers and fuzzy sets -/

section Numbers

variable {α : Type} [Scalar α]

theorem matches_number {problem : Problem} (h : R.Aligned c d)
    (plain : problem ≠ .missingFunction) :
    R.Matches R.Sealed R.Sealed Eq (Reading.number problem c : Reply c α)
      (Reading.number problem d) := by
  unfold Reading.number
  refine .bind (matches_expect h (by decide) (by decide) plain) fun t u _ ⟨word, ht⟩ h => ?_
  rw [← word.text_eq ht]
  cases Numeral.read? t.text with
  | some numeral => exact matches_pure h _
  | none => exact .of_error h (fun _ => ⟨.refl _, word.place⟩) nofun

theorem matches_numbers {function : String} (count : Nat) (h : R.Aligned c d) :
    R.Matches R.Sealed R.Sealed Eq (Reading.numbers function count c : Reply c (Vector α count))
      (Reading.numbers function count d) := by
  induction count with
  | zero => exact matches_pure h _
  | succ count ih =>
    unfold Reading.numbers
    refine .bind ih fun before _ _ same h => ?_
    subst same
    split
    · refine .bind (matches_expect h (by decide) (by decide) nofun) fun _ _ _ _ h => ?_
      refine .bind (matches_number h nofun) fun x _ _ same h => ?_
      subst same
      exact matches_pure h _
    · refine .bind (matches_number h nofun) fun x _ _ same h => ?_
      subst same
      exact matches_pure h _

theorem matches_arguments {function : String} (count : Nat) (h : R.Aligned c d) :
    R.Matches R.Sealed R.Sealed Eq (Reading.arguments function count c : Reply c (Vector α count))
      (Reading.arguments function count d) := by
  unfold Reading.arguments
  refine .bind (matches_expect h (by decide) (by decide) nofun) fun _ _ _ _ h => ?_
  refine .bind (matches_numbers count h) fun xs _ _ same h => ?_
  subst same
  refine .bind (matches_expect h (by decide) (by decide) nofun) fun _ _ _ _ h => ?_
  exact matches_pure h _

/-- The name of a function is read, and `operand` reads the sets inside. -/
theorem matches_reader (f : BuiltIn) (h : R.Aligned c d)
    {left : (c' : Cursor) → c'.Follows c → Reply c' (FuzzySet α)}
    {right : (d' : Cursor) → d'.Follows d → Reply d' (FuzzySet α)}
    (operands : ∀ c' d' hc hd, R.Aligned c' d' →
      R.Matches R.Sealed R.Sealed Eq (left c' hc) (right d' hd)) :
    R.Matches R.Sealed R.Sealed Eq (f.reader c left) (f.reader d right) := by
  cases f with
  | linear => exact (matches_arguments 2 h).map fun _ _ same => same ▸ rfl
  | triangular => exact (matches_arguments 3 h).map fun _ _ same => same ▸ rfl
  | trapezoid => exact (matches_arguments 4 h).map fun _ _ same => same ▸ rfl
  | inverted =>
    unfold BuiltIn.reader BuiltIn.readInverted
    refine .andThen (matches_expect h (by decide) (by decide) nofun) fun _ _ _ _ h => ?_
    refine .andThen (operands _ _ _ _ h) fun m _ _ same h => ?_
    refine Matches.map (matches_expect h ?_ ?_ ?_) fun _ _ _ => congrArg _ same
    · decide
    · decide
    · nofun

theorem OpensStatement.ne_kind {kind : TokenKind} (h : kind.OpensStatement) (f : BuiltIn) :
    kind ≠ f.kind := by
  rcases h with rfl | rfl <;> cases f <;> decide

/-- At the end of the first source a function name is missed there, and in the second one the word
behind is taken for it. -/
theorem matches_readFuzzySet_nil (h : R.Aligned c d) (hc : c.rest = []) (hd : d.rest = R.further) :
    R.Matches R.Sealed R.Sealed Eq (readFuzzySet .standard c : Reply c (FuzzySet α))
      (readFuzzySet .standard d) := by
  rw [readFuzzySet_nil hc]
  cases hf : R.further with
  | nil =>
    rw [readFuzzySet_nil (hd.trans hf)]
    exact .error rfl rfl (fun hs => ⟨.refl _, h.position hs⟩) (.inl hf) h
  | cons t ts =>
    have hd' : d.rest = t :: ts := hd.trans hf
    have opens : t.kind.OpensStatement := R.starts (by rw [hf]; rfl)
    have unknown := FunctionTable.find?_standard_eq_none (α := α) (OpensStatement.ne_kind opens)
    rw [readFuzzySet_unknown hd' unknown]
    refine .swallowed rfl rfl rfl ?_ hc ?_
    · rintro (alone | last)
      · rw [hf] at alone
        cases alone
      · simp [hc] at last
    · rw [hf]
      exact congrArg List.tail hd'

theorem matches_readFuzzySet (h : R.Aligned c d) :
    R.Matches R.Sealed R.Sealed Eq (readFuzzySet .standard c : Reply c (FuzzySet α))
      (readFuzzySet .standard d) := by
  induction hl : c.rest.length using Nat.strongRecOn generalizing c d with
  | ind n ih =>
    rcases h.cases with ⟨hc, hd⟩ | ⟨t, ts, u, us, hc, hd, name, -⟩
    · exact matches_readFuzzySet_nil h hc hd
    · have next := h.advance (Cursor.peekKind_eq_some_iff.2 ⟨t, ts, hc, rfl⟩)
      have shorter (c' : Cursor) (later : c'.Follows c.advance) : c'.rest.length < n :=
        hl ▸ later.length_lt (by simp [hc])
      have same := FunctionTable.find?_congr (α := α) .standard (R.upper name.word)
      cases found : (FunctionTable.standard : FunctionTable α).find? t.text with
      | none =>
        rw [readFuzzySet_unknown hc found, readFuzzySet_unknown hd (same ▸ found)]
        exact .error rfl rfl (fun _ => ⟨.function name.word, name.place⟩) (.inr nofun) next
      | some reader =>
        rw [readFuzzySet_known hc found, readFuzzySet_known hd (same ▸ found)]
        obtain ⟨f, hf, rfl⟩ := FunctionTable.find?_standard_iff.1 found
        have inside := matches_reader f next fun c' d' hc' _ h' => ih _ (shorter c' hc') h' rfl
        refine inside.since fun hs => ?_
        rw [Cursor.advance_eq hc]
        refine hs.tail hc fun he => ?_
        have hk : t.kind = f.kind := hf
        rw [he] at hk
        cases f <;> cases hk

end Numbers

/-! ## Premises -/

variable (R) in
/-- Read at this cursor and at any aligned one, the premises match. -/
def Keeps (read : (c : Cursor) → Reply c Premise) (c : Cursor) : Prop :=
  ∀ d, R.Aligned c d → R.Matches R.Sealed R.Sealed Eq (read c) (read d)

/-- Reading goes on behind a word that both sources have here. -/
theorem Keeps.behind {read : (c : Cursor) → Reply c Premise} (keeps : R.Keeps read c.advance)
    (h : R.Aligned c d) {kind : TokenKind} (hk : c.peekKind = some kind) (noEnd : kind ≠ .semicolon)
    (join : Premise → Premise) :
    R.Matches R.Sealed R.Sealed Eq (((read c.advance).map join).since c.advance_follows)
      (((read d.advance).map join).since d.advance_follows) :=
  ((keeps _ (h.advance hk)).map fun _ _ same => congrArg join same).since fun hs =>
    hs.advance hk noEnd

theorem keeps_premise (operand : R.Keeps readOperand c)
    (behindAnd : ∀ d : Cursor, d.Follows c → d.peekKind = some .andWord →
      R.Keeps readPremise d.advance)
    (behindOr : ∀ d : Cursor, d.Follows c → d.peekKind = some .orWord →
      R.Keeps readPremise d.advance) : R.Keeps readPremise c := by
  intro d h
  rw [readPremise, readPremise]
  refine .andThen (operand d h) fun left _ _ same h => ?_
  subst same
  have later := (readOperand c).forward
  by_cases ha : (readOperand c).next.peekKind = some .andWord
  · rw [dif_pos ha, dif_pos ((h.peekKind_iff (by decide)).2 ha)]
    exact (behindAnd _ later ha).behind h ha (by decide) _
  · rw [dif_neg ha, dif_neg fun hd => ha ((h.peekKind_iff (by decide)).1 hd)]
    by_cases ho : (readOperand c).next.peekKind = some .orWord
    · rw [dif_pos ho, dif_pos ((h.peekKind_iff (by decide)).2 ho)]
      exact (behindOr _ later ho).behind h ho (by decide) _
    · rw [dif_neg ho, dif_neg fun hd => ho ((h.peekKind_iff (by decide)).1 hd)]
      exact .of_ok h rfl id

theorem keeps_readPremise_readOperand :
    (∀ c, R.Keeps readPremise c) ∧ ∀ c, R.Keeps readOperand c := by
  apply readPremise_induction
  case premise => exact fun c operand behindAnd behindOr => keeps_premise operand behindAnd behindOr
  case negatedOperand =>
    intro c hn start operand d h
    have next := h.advance hn
    have hn' := (h.peekKind_iff (by decide)).2 hn
    have start' : d.advance.peekKind = some .identifier ∨ d.advance.peekKind = some .openParen :=
      start.imp (next.peekKind_iff (by decide)).2 (next.peekKind_iff (by decide)).2
    rw [readOperand_not hn start, readOperand_not hn' start']
    exact operand.behind h hn (by decide) _
  case negatedPremise =>
    intro c hn noName noParen premise d h
    have next := h.advance hn
    have hn' := (h.peekKind_iff (by decide)).2 hn
    rw [readOperand_notRest hn noName noParen, readOperand_notRest hn'
      (fun hd => noName ((next.peekKind_iff (by decide)).1 hd))
      fun hd => noParen ((next.peekKind_iff (by decide)).1 hd)]
    exact premise.behind h hn (by decide) _
  case group =>
    intro c hp premise d h
    rw [readOperand_group hp, readOperand_group ((h.peekKind_iff (by decide)).2 hp)]
    refine Matches.since (.andThen (premise _ (h.advance hp)) fun inner _ _ same h => ?_)
      fun hs => hs.advance hp (by decide)
    refine Matches.map (matches_expect h ?_ ?_ ?_) fun _ _ _ => same
    · decide
    · decide
    · nofun
  case proposition =>
    intro c noNot noParen d h
    rw [readOperand_proposition noNot noParen, readOperand_proposition
      (fun hd => noNot ((h.peekKind_iff (by decide)).1 hd))
      fun hd => noParen ((h.peekKind_iff (by decide)).1 hd)]
    exact (matches_readProposition h).map fun _ _ same => congrArg _ same

theorem matches_readPremise (h : R.Aligned c d) :
    R.Matches R.Sealed R.Sealed Eq (readPremise c) (readPremise d) :=
  keeps_readPremise_readOperand.1 c d h

theorem matches_readRule (h : R.Aligned c d) :
    R.Matches R.Sealed R.Sealed Eq (readRule c) (readRule d) := by
  unfold readRule
  refine .bind (matches_readPremise h) fun p _ _ same h => ?_
  subst same
  refine .bind (matches_expect h (by decide) (by decide) nofun) fun _ _ _ _ h => ?_
  refine .bind (matches_readProposition h) fun q _ _ same h => ?_
  subst same
  exact matches_pure h _

end Correspondence

end FuzzyInference
