import FuzzyInference.Language.Comment
import Mathlib.Data.List.Infix

/-!
# Comments and what is outside

* `commentStateAfter`: where a text leaves off, inside a comment or outside;
* `blankFrom_append`: a text goes on behind another one in the state that one leaves, unless an
  opener or a closer is cut in two;
* `CommentFree`: no opener anywhere. Such a text stays as it is, and blanking makes every text
  free of comments.
-/

namespace FuzzyInference

/-- The state behind a text that starts in the given state. -/
def commentStateAfter : CommentState → List Char → CommentState
  | state, [] => state
  | .outside, '/' :: '/' :: rest => commentStateAfter .line rest
  | .outside, '/' :: '*' :: rest => commentStateAfter .block rest
  | .outside, _ :: rest => commentStateAfter .outside rest
  | .line, '\n' :: rest => commentStateAfter .outside rest
  | .line, _ :: rest => commentStateAfter .line rest
  | .block, '*' :: '/' :: rest => commentStateAfter .outside rest
  | .block, '\n' :: rest => commentStateAfter .block rest
  | .block, _ :: rest => commentStateAfter .block rest

/-- A text that cannot complete an opener or a closer begun before it. -/
def NoMark (text : List Char) : Prop :=
  text.head? ≠ some '/' ∧ text.head? ≠ some '*'

theorem noMark_nil : NoMark [] := ⟨nofun, nofun⟩

theorem noMark_cons {c : Char} (slash : c ≠ '/') (star : c ≠ '*') (rest : List Char) :
    NoMark (c :: rest) := ⟨by simpa using slash, by simpa using star⟩

theorem head?_ne_of_forall {mark : Char} {text : List Char} (h : ∀ rest, text ≠ mark :: rest) :
    text.head? ≠ some mark := by
  cases text with
  | nil => simp
  | cons c cs =>
    intro hc
    obtain rfl := Option.some.inj hc
    exact h cs rfl

theorem NoMark.append {text rest : List Char} (ht : NoMark text) (hr : NoMark rest) :
    NoMark (text ++ rest) := by
  cases text with
  | nil => exact hr
  | cons c cs => exact ht

section Steps

variable {c : Char} {rest : List Char}

/-- Outside comments, characters other than an opener stand for themselves. -/
theorem blankFrom_outside (h : c ≠ '/' ∨ NoMark rest) :
    blankFrom .outside (c :: rest) = c :: blankFrom .outside rest ∧
      commentStateAfter .outside (c :: rest) = commentStateAfter .outside rest := by
  constructor
  · rw [blankFrom]
    · rintro r rfl rfl
      exact h.elim (fun h => h rfl) fun h => h.1 rfl
    · rintro r rfl rfl
      exact h.elim (fun h => h rfl) fun h => h.2 rfl
  · rw [commentStateAfter]
    · rintro r rfl rfl
      exact h.elim (fun h => h rfl) fun h => h.1 rfl
    · rintro r rfl rfl
      exact h.elim (fun h => h rfl) fun h => h.2 rfl

theorem blankFrom_line (h : c ≠ '\n') :
    blankFrom .line (c :: rest) = ' ' :: blankFrom .line rest ∧
      commentStateAfter .line (c :: rest) = commentStateAfter .line rest := by
  constructor
  · rw [blankFrom]
    exact h
  · rw [commentStateAfter]
    exact h

theorem blankFrom_block (h : c ≠ '*' ∨ rest.head? ≠ some '/') (hn : c ≠ '\n') :
    blankFrom .block (c :: rest) = ' ' :: blankFrom .block rest ∧
      commentStateAfter .block (c :: rest) = commentStateAfter .block rest := by
  constructor
  · rw [blankFrom]
    · rintro r rfl rfl
      exact h.elim (fun h => h rfl) fun h => h rfl
    · exact hn
  · rw [commentStateAfter]
    · rintro r rfl rfl
      exact h.elim (fun h => h rfl) fun h => h rfl
    · exact hn

end Steps

theorem blankFrom_append {rest : List Char} (h : NoMark rest) (state : CommentState)
    (text : List Char) :
    blankFrom state (text ++ rest) =
      blankFrom state text ++ blankFrom (commentStateAfter state text) rest := by
  fun_induction blankFrom state text with
  | case1 => simp [commentStateAfter]
  | case2 text ih => simp [blankFrom, commentStateAfter, ih]
  | case3 text ih => simp [blankFrom, commentStateAfter, ih]
  | case4 c text noLine noBlock ih =>
    have plain : c ≠ '/' ∨ NoMark text := by
      by_cases hc : c = '/'
      · exact .inr ⟨head?_ne_of_forall fun r => noLine r hc,
          head?_ne_of_forall fun r => noBlock r hc⟩
      · exact .inl hc
    obtain ⟨hb, hs⟩ := blankFrom_outside plain
    rw [List.cons_append, (blankFrom_outside (plain.imp_right (·.append h))).1, ih, hs]
    rfl
  | case5 text ih => simp [blankFrom, commentStateAfter, ih]
  | case6 c text other ih =>
    rw [List.cons_append, (blankFrom_line other).1, (blankFrom_line other).2, ih]
    rfl
  | case7 text ih => simp [blankFrom, commentStateAfter, ih]
  | case8 text ih => simp [blankFrom, commentStateAfter, ih]
  | case9 c text other noBreak ih =>
    have plain : c ≠ '*' ∨ text.head? ≠ some '/' := by
      by_cases hc : c = '*'
      · exact .inr (head?_ne_of_forall fun r => other r hc)
      · exact .inl hc
    have plain' : c ≠ '*' ∨ (text ++ rest).head? ≠ some '/' := by
      refine plain.imp_right fun ht => ?_
      cases text with
      | nil => exact h.1
      | cons d ds => exact ht
    rw [List.cons_append, (blankFrom_block plain' noBreak).1, (blankFrom_block plain noBreak).2, ih]
    rfl

/-! ## Texts without comments -/

/-- No comment is opened anywhere in the text. -/
structure CommentFree (text : List Char) : Prop where
  noLine : ¬ ['/', '/'] <:+: text
  noBlock : ¬ ['/', '*'] <:+: text

instance (text : List Char) : Decidable (CommentFree text) :=
  decidable_of_iff (¬ ['/', '/'] <:+: text ∧ ¬ ['/', '*'] <:+: text)
    ⟨fun h => ⟨h.1, h.2⟩, fun h => ⟨h.noLine, h.noBlock⟩⟩

theorem CommentFree.part {text part : List Char} (h : CommentFree text) (hp : part <:+: text) :
    CommentFree part :=
  ⟨fun hl => h.noLine (hl.trans hp), fun hb => h.noBlock (hb.trans hp)⟩

theorem commentFree_cons_iff {c : Char} {rest : List Char} :
    CommentFree (c :: rest) ↔ (c ≠ '/' ∨ NoMark rest) ∧ CommentFree rest := by
  have opened (mark : Char) : ['/', mark] <+: c :: rest ↔ c = '/' ∧ rest.head? = some mark := by
    cases rest <;> simp [eq_comm]
  constructor
  · intro h
    refine ⟨?_, h.part (List.infix_cons List.infix_rfl)⟩
    by_cases hc : c = '/'
    · exact .inr ⟨fun hr => h.noLine ((opened '/').2 ⟨hc, hr⟩).isInfix,
        fun hr => h.noBlock ((opened '*').2 ⟨hc, hr⟩).isInfix⟩
    · exact .inl hc
  · rintro ⟨plain, h⟩
    refine ⟨fun hl => ?_, fun hb => ?_⟩
    · rcases List.infix_cons_iff.1 hl with hl | hl
      · obtain ⟨hc, hr⟩ := (opened '/').1 hl
        exact plain.elim (fun h => h hc) fun h => h.1 hr
      · exact h.noLine hl
    · rcases List.infix_cons_iff.1 hb with hb | hb
      · obtain ⟨hc, hr⟩ := (opened '*').1 hb
        exact plain.elim (fun h => h hc) fun h => h.2 hr
      · exact h.noBlock hb

theorem CommentFree.blankFrom {text : List Char} (h : CommentFree text) :
    blankFrom .outside text = text ∧ commentStateAfter .outside text = .outside := by
  induction text with
  | nil => exact ⟨rfl, rfl⟩
  | cons c rest ih =>
    obtain ⟨plain, hr⟩ := commentFree_cons_iff.1 h
    obtain ⟨hb, hs⟩ := blankFrom_outside plain
    rw [hb, hs, (ih hr).1, (ih hr).2]
    exact ⟨rfl, rfl⟩

theorem noMark_blankFrom_outside {text : List Char} (h : NoMark text) :
    NoMark (FuzzyInference.blankFrom .outside text) := by
  cases text with
  | nil => exact noMark_nil
  | cons c rest =>
    have slash : c ≠ '/' := fun hc => h.1 (congrArg some hc)
    rw [(blankFrom_outside (.inl slash)).1]
    exact h

theorem commentFree_blankFrom (state : CommentState) (text : List Char) :
    CommentFree (FuzzyInference.blankFrom state text) := by
  have blank {t : List Char} (h : CommentFree t) : CommentFree (' ' :: t) :=
    commentFree_cons_iff.2 ⟨.inl (by decide), h⟩
  have newline {t : List Char} (h : CommentFree t) : CommentFree ('\n' :: t) :=
    commentFree_cons_iff.2 ⟨.inl (by decide), h⟩
  fun_induction FuzzyInference.blankFrom state text with
  | case1 => exact ⟨by simp, by simp⟩
  | case2 _ ih | case3 _ ih | case7 _ ih => exact blank (blank ih)
  | case4 c text noLine noBlock ih =>
    refine commentFree_cons_iff.2 ⟨?_, ih⟩
    by_cases hc : c = '/'
    · exact .inr (noMark_blankFrom_outside ⟨head?_ne_of_forall fun r => noLine r hc,
        head?_ne_of_forall fun r => noBlock r hc⟩)
    · exact .inl hc
  | case5 _ ih | case8 _ ih => exact newline ih
  | case6 _ _ _ ih | case9 _ _ _ _ ih => exact blank ih

end FuzzyInference
