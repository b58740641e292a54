import FuzzyInference.Proofs.Comments
import Mathlib.Order.Bounds.Basic
import Mathlib.Order.Nat

/-!
# Where the comments of a text are

* `OpensAt`, `ClosesAt`: the marks that open and close comments;
* `MayEnd`: the places at which an open comment can end. It ends at the first of them;
* `CommentsFrom`: the comments of a text, of which each starts at the first mark that opens one
  behind the comment before it;
* `BlankedFrom`: what blanking has come to at a place, with a lemma for every step that it takes and
  one for every run of steps in the same state;
* `blankComments_exact`: so a character becomes a space if a comment covers it and it is no line
  break, and stays as it is otherwise.
-/

namespace FuzzyInference

/-! ## Comments -/

def OpensAt (text : List Char) (i : Nat) : Prop :=
  text[i]? = some '/' ∧ (text[i + 1]? = some '/' ∨ text[i + 1]? = some '*')

def ClosesAt (text : List Char) (i : Nat) : Prop :=
  text[i]? = some '*' ∧ text[i + 1]? = some '/'

instance (text : List Char) (i : Nat) : Decidable (OpensAt text i) :=
  inferInstanceAs (Decidable (_ ∧ _))

instance (text : List Char) (i : Nat) : Decidable (ClosesAt text i) :=
  inferInstanceAs (Decidable (_ ∧ _))

/-- A comment that is opened at `start` can end in front of a line break or behind a closing mark,
whichever its second character asks for, and at the end of the text. The closing mark shares no
character with the opening one. -/
inductive MayEnd (text : List Char) (start : Nat) : Nat → Prop
  | lineBreak {stop : Nat} (line : text[start + 1]? = some '/') (behind : start + 2 ≤ stop)
      (here : text[stop]? = some '\n') : MayEnd text start stop
  | closer {close : Nat} (block : text[start + 1]? = some '*') (behind : start + 2 ≤ close)
      (here : ClosesAt text close) : MayEnd text start (close + 2)
  | endOfText : MayEnd text start text.length

/-- A part of a text. The character at `stop` is the first one behind it. -/
@[ext] structure Span where
  start : Nat
  stop : Nat
  deriving DecidableEq

def Span.Covers (s : Span) (i : Nat) : Prop := s.start ≤ i ∧ i < s.stop

instance (s : Span) (i : Nat) : Decidable (s.Covers i) :=
  inferInstanceAs (Decidable (_ ∧ _))

/-- The comments of a text from `place` on, which no comment covers. What could open a comment
inside another one has no effect. -/
inductive CommentsFrom (text : List Char) : Nat → List Span → Prop
  | none {place : Nat} (free : ∀ i, place ≤ i → ¬ OpensAt text i) : CommentsFrom text place []
  | next {place : Nat} {s : Span} {others : List Span}
      (opens : IsLeast {i | place ≤ i ∧ OpensAt text i} s.start)
      (ends : IsLeast {j | MayEnd text s.start j} s.stop)
      (behind : CommentsFrom text s.stop others) : CommentsFrom text place (s :: others)

section

variable {text : List Char} {place start stop i : Nat}

theorem OpensAt.two_le (h : OpensAt text start) : start + 2 ≤ text.length := by
  obtain ⟨-, second | second⟩ := h
  · have := (List.getElem?_eq_some_iff.1 second).1
    omega
  · have := (List.getElem?_eq_some_iff.1 second).1
    omega

/-- A comment has its two opening characters at least, and does not go beyond the text. -/
theorem MayEnd.bounds (h : MayEnd text start stop) (opens : OpensAt text start) :
    start + 2 ≤ stop ∧ stop ≤ text.length := by
  cases h with
  | lineBreak _ behind here =>
    have := (List.getElem?_eq_some_iff.1 here).1
    omega
  | closer _ behind here =>
    have := (List.getElem?_eq_some_iff.1 here.2).1
    omega
  | endOfText => exact ⟨opens.two_le, Nat.le_refl _⟩

/-- There is a list of the comments of a text from every place on. -/
theorem exists_commentsFrom (text : List Char) (place : Nat) :
    ∃ comments, CommentsFrom text place comments := by
  classical
  by_cases h : ∃ i, place ≤ i ∧ OpensAt text i
  · have opens := Nat.isLeast_find h
    have ending : ∃ j, MayEnd text (Nat.find h) j := ⟨_, .endOfText⟩
    have ends := Nat.isLeast_find ending
    have := ends.1.bounds opens.1.2
    have := opens.1.1
    obtain ⟨others, behind⟩ := exists_commentsFrom text (Nat.find ending)
    exact ⟨⟨_, _⟩ :: others, .next opens ends behind⟩
  · refine ⟨[], .none ?_⟩
    intro i hi opens
    exact h ⟨i, hi, opens⟩
  termination_by text.length - place
  decreasing_by omega

/-- Nothing is left open about where the comments are. -/
theorem CommentsFrom.unique {as bs : List Span} (ha : CommentsFrom text place as)
    (hb : CommentsFrom text place bs) : as = bs := by
  induction ha generalizing bs with
  | none free =>
    cases hb with
    | none => rfl
    | next opens => exact absurd opens.1.2 (free _ opens.1.1)
  | next opens ends behind ih =>
    cases hb with
    | none free => exact absurd opens.1.2 (free _ opens.1.1)
    | next opens' ends' behind' =>
      have starts := opens.unique opens'
      rw [← starts] at ends'
      have stops := ends.unique ends'
      rw [← stops] at behind'
      rw [Span.ext starts stops, ih behind']

theorem CommentsFrom.place_le {comments : List Span} (h : CommentsFrom text place comments) :
    ∀ s ∈ comments, place ≤ s.start := by
  induction h with
  | none => simp
  | @next place s others opens ends behind ih =>
    have := ends.1.bounds opens.1.2
    have := opens.1.1
    intro t ht
    rcases List.mem_cons.1 ht with rfl | ht
    · exact opens.1.1
    · have := ih t ht
      omega

end

/-! ## Blanking step by step -/

/-- What becomes of a character inside a comment. -/
def hide (c : Char) : Char := if c = '\n' then c else ' '

/-- From `place` on, `out` is `text` with its comments blanked, and `place` is reached in this
state. -/
def BlankedFrom (text out : List Char) (state : CommentState) (place : Nat) : Prop :=
  out.drop place = blankFrom state (text.drop place)

theorem drop_eq_cons_iff {text rest : List Char} {i : Nat} {c : Char} :
    text.drop i = c :: rest ↔ text[i]? = some c ∧ text.drop (i + 1) = rest := by
  rw [← List.head?_drop, ← List.tail_drop]
  cases text.drop i <;> simp

namespace BlankedFrom

variable {text out : List Char} {place stop : Nat} {c : Char}

theorem eq_of_le {state : CommentState} (h : BlankedFrom text out state place)
    (ended : text.length ≤ place) (other : CommentState) : BlankedFrom text out other place := by
  unfold BlankedFrom at *
  rw [h, List.drop_eq_nil_of_le ended, blankFrom, blankFrom]

theorem noMark_drop_iff : NoMark (text.drop place) ↔
    text[place]? ≠ some '/' ∧ text[place]? ≠ some '*' := by
  rw [NoMark, List.head?_drop]

/-- One character is blanked as `rule` says. -/
theorem step {state next : CommentState} {b : Char} (h : BlankedFrom text out state place)
    (here : text[place]? = some c)
    (rule : blankFrom state (c :: text.drop (place + 1)) =
      b :: blankFrom next (text.drop (place + 1))) :
    out[place]? = some b ∧ BlankedFrom text out next (place + 1) := by
  unfold BlankedFrom at h
  rw [drop_eq_cons_iff.2 ⟨here, rfl⟩, rule] at h
  exact drop_eq_cons_iff.1 h

/-- The two characters of a mark are blanked together. -/
theorem mark {state next : CommentState} {a b : Char} (h : BlankedFrom text out state place)
    (first : text[place]? = some a) (second : text[place + 1]? = some b)
    (rule : ∀ rest, blankFrom state (a :: b :: rest) = ' ' :: ' ' :: blankFrom next rest) :
    out[place]? = some ' ' ∧ out[place + 1]? = some ' ' ∧
      BlankedFrom text out next (place + 2) := by
  unfold BlankedFrom at h
  rw [drop_eq_cons_iff.2 ⟨first, drop_eq_cons_iff.2 ⟨second, rfl⟩⟩, rule] at h
  obtain ⟨one, h⟩ := drop_eq_cons_iff.1 h
  exact ⟨one, drop_eq_cons_iff.1 h⟩

/-- Outside comments a character stands for itself, unless a comment is opened here. -/
theorem outside_step (h : BlankedFrom text out .outside place) (here : text[place]? = some c)
    (plain : ¬ OpensAt text place) :
    out[place]? = some c ∧ BlankedFrom text out .outside (place + 1) := by
  apply h.step here
  apply (blankFrom_outside _).1
  by_cases slash : c = '/'
  · right
    subst slash
    rw [noMark_drop_iff]
    constructor
    · intro second
      exact plain ⟨here, .inl second⟩
    · intro second
      exact plain ⟨here, .inr second⟩
  · exact .inl slash

theorem line_opened (h : BlankedFrom text out .outside place) (first : text[place]? = some '/')
    (second : text[place + 1]? = some '/') :
    out[place]? = some ' ' ∧ out[place + 1]? = some ' ' ∧
      BlankedFrom text out .line (place + 2) :=
  h.mark first second fun _ => by rw [blankFrom]

theorem block_opened (h : BlankedFrom text out .outside place) (first : text[place]? = some '/')
    (second : text[place + 1]? = some '*') :
    out[place]? = some ' ' ∧ out[place + 1]? = some ' ' ∧
      BlankedFrom text out .block (place + 2) :=
  h.mark first second fun _ => by rw [blankFrom]

theorem line_step (h : BlankedFrom text out .line place) (here : text[place]? = some c)
    (other : c ≠ '\n') : out[place]? = some (hide c) ∧ BlankedFrom text out .line (place + 1) := by
  apply h.step here
  rw [(blankFrom_line other).1, hide, if_neg other]

/-- A line break is outside the comment that it ends. -/
theorem line_ended (h : BlankedFrom text out .line place) (here : text[place]? = some '\n') :
    BlankedFrom text out .outside place := by
  unfold BlankedFrom at *
  rw [drop_eq_cons_iff.2 ⟨here, rfl⟩, blankFrom] at h
  rw [h, drop_eq_cons_iff.2 ⟨here, rfl⟩, (blankFrom_outside (.inl (by decide))).1]

theorem block_step (h : BlankedFrom text out .block place) (here : text[place]? = some c)
    (goesOn : ¬ ClosesAt text place) :
    out[place]? = some (hide c) ∧ BlankedFrom text out .block (place + 1) := by
  apply h.step here
  by_cases newline : c = '\n'
  · subst newline
    rw [blankFrom]
    rfl
  · rw [hide, if_neg newline]
    apply (blankFrom_block _ newline).1
    by_cases star : c = '*'
    · right
      subst star
      rw [List.head?_drop]
      intro second
      exact goesOn ⟨here, second⟩
    · exact .inl star

theorem block_closed (h : BlankedFrom text out .block place) (closes : ClosesAt text place) :
    out[place]? = some ' ' ∧ out[place + 1]? = some ' ' ∧
      BlankedFrom text out .outside (place + 2) :=
  h.mark closes.1 closes.2 fun _ => by rw [blankFrom]

/-- Blanking stays in one state as long as the condition of its step holds. -/
theorem run {state : CommentState} {goesOn : Nat → Prop} {f : Char → Char}
    (step : ∀ i c, BlankedFrom text out state i → text[i]? = some c → goesOn i →
      out[i]? = some (f c) ∧ BlankedFrom text out state (i + 1))
    (h : BlankedFrom text out state place) (le : place ≤ stop) (bound : stop ≤ text.length)
    (all : ∀ i, place ≤ i → i < stop → goesOn i) :
    BlankedFrom text out state stop ∧
      ∀ i, place ≤ i → i < stop → out[i]? = text[i]?.map f := by
  induction stop, le using Nat.le_induction with
  | base =>
    refine ⟨h, ?_⟩
    intro i _ _
    omega
  | succ stop le ih =>
    obtain ⟨reached, same⟩ := ih (by omega) fun i _ _ => all i ‹_› (by omega)
    have here : text[stop]? = some text[stop] := List.getElem?_eq_getElem (by omega)
    obtain ⟨hidden, next⟩ := step stop _ reached here (all stop le (by omega))
    refine ⟨next, ?_⟩
    intro i _ _
    by_cases last : i = stop
    · rw [last, hidden, here, Option.map_some]
    · exact same i ‹_› (by omega)

/-- The two opening characters are hidden as all others of a comment are. -/
theorem hidden_of_opened {start : Nat} (opens : OpensAt text start)
    (first : out[start]? = some ' ') (second : out[start + 1]? = some ' ')
    (others : ∀ i, start + 2 ≤ i → i < stop → out[i]? = text[i]?.map hide) :
    ∀ i, start ≤ i → i < stop → out[i]? = text[i]?.map hide := by
  intro i _ _
  by_cases one : i = start
  · rw [one, first, opens.1]
    rfl
  by_cases two : i = start + 1
  · rcases opens.2 with mark | mark
    · rw [two, second, mark]
      rfl
    · rw [two, second, mark]
      rfl
  · exact others i (by omega) ‹_›

/-- A line comment is blanked up to the line break behind it or the end of the text. -/
theorem line_comment {start : Nat} (h : BlankedFrom text out .outside start)
    (opens : OpensAt text start) (line : text[start + 1]? = some '/')
    (ends : IsLeast {j | MayEnd text start j} stop) :
    BlankedFrom text out .outside stop ∧
      ∀ i, start ≤ i → i < stop → out[i]? = text[i]?.map hide := by
  obtain ⟨first, second, h⟩ := h.line_opened opens.1 line
  obtain ⟨behind, bound⟩ := ends.1.bounds opens
  have oneLine : ∀ i, start + 2 ≤ i → i < stop → text[i]? ≠ some '\n' := by
    intro i hi before newline
    have := ends.2 (.lineBreak line hi newline)
    omega
  have step (i : Nat) (c : Char) (h : BlankedFrom text out .line i) (here : text[i]? = some c)
      (other : text[i]? ≠ some '\n') := h.line_step here (by simpa [here] using other)
  obtain ⟨h, hidden⟩ := run step h behind bound oneLine
  refine ⟨?_, hidden_of_opened opens first second hidden⟩
  by_cases newline : text[stop]? = some '\n'
  · exact h.line_ended newline
  · have atEnd : stop = text.length := by
      cases ends.1 with
      | lineBreak _ _ here => exact absurd here newline
      | closer block => simp [line] at block
      | endOfText => rfl
    exact h.eq_of_le (by omega) _

/-- A block comment is blanked up to its first closing mark. -/
theorem block_comment_closed {start close : Nat} (h : BlankedFrom text out .outside start)
    (opens : OpensAt text start) (block : text[start + 1]? = some '*')
    (closes : IsLeast {i | start + 2 ≤ i ∧ ClosesAt text i} close) :
    BlankedFrom text out .outside (close + 2) ∧
      ∀ i, start ≤ i → i < close + 2 → out[i]? = text[i]?.map hide := by
  obtain ⟨first, second, h⟩ := h.block_opened opens.1 block
  obtain ⟨⟨behind, mark⟩, least⟩ := closes
  have bound : close < text.length := (List.getElem?_eq_some_iff.1 mark.1).1
  have goesOn : ∀ i, start + 2 ≤ i → i < close → ¬ ClosesAt text i := by
    intro i hi before closed
    have := least ⟨hi, closed⟩
    omega
  obtain ⟨h, hidden⟩ := run (fun _ _ h here => h.block_step here) h behind (by omega) goesOn
  obtain ⟨star, slash, h⟩ := h.block_closed mark
  refine ⟨h, hidden_of_opened opens first second ?_⟩
  intro i hi _
  by_cases one : i = close
  · rw [one, star, mark.1]
    rfl
  by_cases two : i = close + 1
  · rw [two, slash, mark.2]
    rfl
  · exact hidden i hi (by omega)

/-- A block comment that is never closed is blanked up to the end of the text. -/
theorem block_comment_unclosed {start : Nat} (h : BlankedFrom text out .outside start)
    (opens : OpensAt text start) (block : text[start + 1]? = some '*')
    (unclosed : ∀ i, start + 2 ≤ i → ¬ ClosesAt text i) :
    BlankedFrom text out .outside text.length ∧
      ∀ i, start ≤ i → i < text.length → out[i]? = text[i]?.map hide := by
  obtain ⟨first, second, h⟩ := h.block_opened opens.1 block
  obtain ⟨h, hidden⟩ := run (fun _ _ h here => h.block_step here) h opens.two_le (Nat.le_refl _)
    fun i hi _ => unclosed i hi
  exact ⟨h.eq_of_le (Nat.le_refl _) _, hidden_of_opened opens first second hidden⟩

theorem comment {start : Nat} (h : BlankedFrom text out .outside start)
    (opens : OpensAt text start) (ends : IsLeast {j | MayEnd text start j} stop) :
    BlankedFrom text out .outside stop ∧
      ∀ i, start ≤ i → i < stop → out[i]? = text[i]?.map hide := by
  rcases opens.2 with line | block
  · exact h.line_comment opens line ends
  by_cases closed : ∃ i, start + 2 ≤ i ∧ ClosesAt text i
  · have closes := Nat.isLeast_find closed
    have first : IsLeast {j | MayEnd text start j} (Nat.find closed + 2) := by
      constructor
      · exact .closer block closes.1.1 closes.1.2
      · intro j hj
        cases hj with
        | lineBreak line => simp [block] at line
        | closer _ behind here => exact Nat.add_le_add_right (closes.2 ⟨behind, here⟩) 2
        | endOfText => exact (List.getElem?_eq_some_iff.1 closes.1.2.2).1
    rw [ends.unique first]
    exact h.block_comment_closed opens block closes
  · have unclosed : ∀ i, start + 2 ≤ i → ¬ ClosesAt text i := fun i hi here => closed ⟨i, hi, here⟩
    have atEnd : stop = text.length := by
      cases ends.1 with
      | lineBreak line => simp [block] at line
      | closer _ behind here => exact absurd here (unclosed _ behind)
      | endOfText => rfl
    rw [atEnd]
    exact h.block_comment_unclosed opens block unclosed

end BlankedFrom

/-! ## Blanking all comments -/

def Covered (comments : List Span) (i : Nat) : Prop := ∃ s ∈ comments, s.Covers i

instance (comments : List Span) (i : Nat) : Decidable (Covered comments i) :=
  inferInstanceAs (Decidable (∃ s ∈ comments, s.Covers i))

theorem covered_cons_iff {s : Span} {comments : List Span} {i : Nat} :
    Covered (s :: comments) i ↔ s.Covers i ∨ Covered comments i := by
  simp [Covered]

section

variable {text out : List Char} {place : Nat} {comments : List Span}

theorem CommentsFrom.not_covered (h : CommentsFrom text place comments) {i : Nat} (hi : i < place) :
    ¬ Covered comments i := by
  rintro ⟨s, hs, covers, -⟩
  have := h.place_le s hs
  omega

/-- Where blanking has reached `place` outside comments, all characters from there on come out as
they should. -/
theorem CommentsFrom.getElem?_eq (found : CommentsFrom text place comments)
    (h : BlankedFrom text out .outside place) (le : place ≤ text.length) :
    ∀ i, place ≤ i → i < text.length →
      out[i]? = if Covered comments i then text[i]?.map hide else text[i]? := by
  -- The comments are one behind the other, each behind a run of characters outside comments.
  induction found with
  | none free =>
    obtain ⟨-, same⟩ := BlankedFrom.run (f := id) (fun _ _ h here => h.outside_step here) h le
      (Nat.le_refl _) fun i hi _ => free i hi
    intro i hi inside
    rw [if_neg (by simp [Covered]), same i hi inside, Option.map_id, id]
  | @next place s others opens ends behind ih =>
    obtain ⟨⟨later, mark⟩, least⟩ := opens
    have plain : ∀ i, place ≤ i → i < s.start → ¬ OpensAt text i := by
      intro i hi before here
      have := least ⟨hi, here⟩
      omega
    have := mark.two_le
    obtain ⟨first, same⟩ := BlankedFrom.run (f := id) (fun _ _ h here => h.outside_step here) h
      later (by omega) plain
    obtain ⟨second, hidden⟩ := first.comment mark ends
    obtain ⟨_, bound⟩ := ends.1.bounds mark
    intro i hi inside
    by_cases before : i < s.start
    · have outside : ¬ Covered (s :: others) i := by
        rw [covered_cons_iff, not_or]
        refine ⟨?_, behind.not_covered (by omega)⟩
        rintro ⟨_, _⟩
        omega
      rw [if_neg outside, same i hi before, Option.map_id, id]
    by_cases within : i < s.stop
    · rw [if_pos (covered_cons_iff.2 (.inl ⟨by omega, within⟩)), hidden i (by omega) within]
    · have same : Covered (s :: others) i ↔ Covered others i := by
        rw [covered_cons_iff, or_iff_right]
        rintro ⟨_, _⟩
        omega
      simp only [same]
      exact ih second bound i (by omega) inside

end

theorem length_blankFrom (state : CommentState) (text : List Char) :
    (blankFrom state text).length = text.length := by
  fun_induction blankFrom state text with
  | _ => simp_all

theorem hide_eq_newline_iff {c : Char} : hide c = '\n' ↔ c = '\n' := by
  unfold hide
  split <;> simp_all

/-- The comments of a source are found from its front to its end, each at the first opening mark
behind the one before. Blanking makes a space of every character that a comment covers, line breaks
apart, and leaves all others as they are. So line breaks stay where they are, no comment is opened
in what remains, and blanking it again changes nothing. -/
theorem blankComments_exact (source : String) :
    let text := source.toList
    let blanked := (blankComments source).toList
    (∃ comments, CommentsFrom text 0 comments ∧
      (∀ others, CommentsFrom text 0 others → others = comments) ∧
      ∀ i : Nat, blanked[i]? = if Covered comments i then text[i]?.map hide else text[i]?) ∧
    blanked.length = text.length ∧
    (∀ i : Nat, blanked[i]? = some '\n' ↔ text[i]? = some '\n') ∧
    ¬ ['/', '/'] <:+: blanked ∧ ¬ ['/', '*'] <:+: blanked ∧
    blankComments (blankComments source) = blankComments source := by
  intro text blanked
  have result : blanked = blankFrom .outside text := String.toList_ofList
  have size : blanked.length = text.length := by rw [result, length_blankFrom]
  have free : CommentFree blanked := result ▸ commentFree_blankFrom .outside text
  obtain ⟨comments, found⟩ := exists_commentsFrom text 0
  have chars : ∀ i : Nat,
      blanked[i]? = if Covered comments i then text[i]?.map hide else text[i]? := by
    intro i
    by_cases inside : i < text.length
    · exact found.getElem?_eq result (Nat.zero_le _) i (Nat.zero_le _) inside
    · have behind : text[i]? = none := List.getElem?_eq_none (by omega)
      have behind' : blanked[i]? = none := List.getElem?_eq_none (by omega)
      simp [behind, behind']
  refine ⟨⟨comments, found, fun others h => h.unique found, chars⟩, size, ?_, free.noLine,
    free.noBlock, ?_⟩
  · intro i
    rw [chars]
    split
    · simp [hide_eq_newline_iff]
    · rfl
  · rw [blankComments, free.blankFrom.1, String.ofList_toList]

example : blankComments "a/*/b//\n**/c/d//*" = "a      \n   c/d   " := by decide +kernel

end FuzzyInference
