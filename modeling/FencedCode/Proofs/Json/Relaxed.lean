import FencedCode.Json.Relaxed
import FencedCode.Text.Search
import Mathlib.Data.List.Forall2
import Mathlib.Data.List.TakeWhile

/-!
# Comments and trailing commas in two passes

A text falls into string literals, comments and single characters. The first pass of the reference
leaves of each comment its line feeds. The second pass blanks each comma outside the literals that
has nothing but white space before the next closing bracket. The library does both in one pass,
which goes back to the last comma when it comes to a bracket, and it comes to the same text.
-/

namespace FencedCode.Json

/-! ## The pieces of a text -/

/-- The text up to the quote that ends a string literal, or all of it, and the text behind. The mark
says that the first character stands behind a backslash. -/
def literalRest : Bool → Text → Text × Text
  | _, [] => ([], [])
  | true, c :: s => (c :: (literalRest false s).1, (literalRest false s).2)
  | false, c :: s =>
    if c = '"' then ([c], s)
    else (c :: (literalRest (c = '\\') s).1, (literalRest (c = '\\') s).2)

/-- What ends a block comment. -/
def commentEnd : Text := "*/".toList

/-- The text up to the end of a block comment, or all of it, and the text behind. -/
def commentRest (s : Text) : Text × Text :=
  match Text.breakWhere commentEnd.isPrefixOf s with
  | some (body, after) => (body ++ commentEnd, after.drop 2)
  | none => (s, [])

inductive Piece
  | literal (text : Text)
  | comment (text : Text)
  | other (c : Char)
deriving DecidableEq

theorem literalRest_append (escaped : Bool) (s : Text) :
    (literalRest escaped s).1 ++ (literalRest escaped s).2 = s := by
  induction s generalizing escaped with
  | nil => cases escaped <;> rfl
  | cons c s ih =>
    cases escaped with
    | true => rw [literalRest, List.cons_append, ih]
    | false =>
      rw [literalRest]
      split
      · rfl
      · rw [List.cons_append, ih]

theorem commentRest_append (s : Text) : (commentRest s).1 ++ (commentRest s).2 = s := by
  unfold commentRest
  split
  · rename_i body after h
    obtain ⟨rest, rfl⟩ := List.isPrefixOf_iff_prefix.mp (Text.breakWhere_holds h)
    rw [Text.breakWhere_append h, List.append_assoc]
    rfl
  · exact List.append_nil s

theorem length_literalRest_le (escaped : Bool) (s : Text) :
    (literalRest escaped s).2.length ≤ s.length := by
  have hlength := congrArg List.length (literalRest_append escaped s)
  rw [List.length_append] at hlength
  omega

theorem length_commentRest_le (s : Text) : (commentRest s).2.length ≤ s.length := by
  have hlength := congrArg List.length (commentRest_append s)
  rw [List.length_append] at hlength
  omega

/-- The string literals, the comments and the single characters of a text, in order. Literals and
comments that do not end run to the end of the text. -/
def pieces : Text → List Piece
  | [] => []
  | c :: s =>
    if c = '"' then .literal (c :: (literalRest false s).1) :: pieces (literalRest false s).2
    else if c = '/' ∧ s.head? = some '/' then
      .comment (c :: s.takeWhile (· ≠ '\n')) :: pieces (s.dropWhile (· ≠ '\n'))
    else if c = '/' ∧ s.head? = some '*' then
      .comment (c :: '*' :: (commentRest s.tail).1) :: pieces (commentRest s.tail).2
    else .other c :: pieces s
termination_by s => s.length
decreasing_by
  · exact Nat.lt_succ_of_le (length_literalRest_le false s)
  · exact Nat.lt_succ_of_le (List.length_dropWhile_le _ s)
  · exact Nat.lt_succ_of_le (Nat.le_trans (length_commentRest_le _) (List.tail_sublist s).length_le)
  · exact Nat.lt_succ_self _

namespace Piece

def text : Piece → Text
  | literal t => t
  | comment t => t
  | other c => [c]

/-- What the first pass leaves of a piece. -/
def kept : Piece → Text
  | literal t => t
  | comment t => t.filter (· = '\n')
  | other c => [c]

def IsComment (p : Piece) : Prop := ∃ t, p = comment t

end Piece

theorem pieces_nil : pieces [] = [] := by rw [pieces]

theorem pieces_literal (s : Text) : pieces ('"' :: s) =
    .literal ('"' :: (literalRest false s).1) :: pieces (literalRest false s).2 := by
  rw [pieces, if_pos rfl]

theorem pieces_lineComment {s : Text} (h : s.head? = some '/') : pieces ('/' :: s) =
    .comment ('/' :: s.takeWhile (· ≠ '\n')) :: pieces (s.dropWhile (· ≠ '\n')) := by
  rw [pieces, if_neg (by decide), if_pos ⟨rfl, h⟩]

theorem pieces_blockComment (s : Text) : pieces ('/' :: '*' :: s) =
    .comment ('/' :: '*' :: (commentRest s).1) :: pieces (commentRest s).2 := by
  rw [pieces, if_neg (by decide), if_neg (by simp), if_pos ⟨rfl, rfl⟩]
  rfl

theorem pieces_other {c : Char} {s : Text} (hquote : c ≠ '"')
    (hline : ¬ (c = '/' ∧ s.head? = some '/')) (hblock : ¬ (c = '/' ∧ s.head? = some '*')) :
    pieces (c :: s) = .other c :: pieces s := by
  rw [pieces, if_neg hquote, if_neg hline, if_neg hblock]

/-- A text is shown from its pieces, from the last one on. -/
theorem pieces_induction {motive : Text → Prop} (nil : motive [])
    (literal : ∀ s, motive (literalRest false s).2 → motive ('"' :: s))
    (lineComment : ∀ s, s.head? = some '/' → motive (s.dropWhile (· ≠ '\n')) → motive ('/' :: s))
    (blockComment : ∀ s, motive (commentRest s).2 → motive ('/' :: '*' :: s))
    (other : ∀ c s, c ≠ '"' → ¬ (c = '/' ∧ s.head? = some '/') →
      ¬ (c = '/' ∧ s.head? = some '*') → motive s → motive (c :: s)) (s : Text) : motive s := by
  induction s using pieces.induct with
  | case1 => exact nil
  | case2 s ih => exact literal s ih
  | case3 c s hquote hline ih => exact hline.1 ▸ lineComment s hline.2 ih
  | case4 c s hquote hline hblock ih =>
    obtain ⟨rfl, hnext⟩ := hblock
    obtain ⟨s, rfl⟩ := List.head?_eq_some_iff.mp hnext
    exact blockComment s ih
  | case5 c s hquote hline hblock ih => exact other c s hquote hline hblock ih

theorem flatMap_text_pieces (s : Text) : (pieces s).flatMap Piece.text = s := by
  induction s using pieces_induction with
  | nil => rw [pieces_nil, List.flatMap_nil]
  | literal s ih =>
    rw [pieces_literal, List.flatMap_cons, ih]
    exact congrArg _ (literalRest_append false s)
  | lineComment s h ih =>
    rw [pieces_lineComment h, List.flatMap_cons, ih]
    exact congrArg _ List.takeWhile_append_dropWhile
  | blockComment s ih =>
    rw [pieces_blockComment, List.flatMap_cons, ih]
    exact congrArg (fun t ↦ '/' :: '*' :: t) (commentRest_append s)
  | other c s hquote hline hblock ih =>
    rw [pieces_other hquote hline hblock, List.flatMap_cons, ih]
    rfl

theorem kept_lineComment (s : Text) :
    (Piece.comment ('/' :: s.takeWhile (· ≠ '\n'))).kept = [] := by
  rw [Piece.kept, List.filter_cons_of_neg (by decide)]
  apply List.filter_eq_nil_iff.mpr
  intro c hc
  simpa using List.mem_takeWhile_imp hc

theorem kept_blockComment (s : Text) :
    (Piece.comment ('/' :: '*' :: (commentRest s).1)).kept =
      (commentRest s).1.filter (· = '\n') := by
  rw [Piece.kept, List.filter_cons_of_neg (by decide), List.filter_cons_of_neg (by decide)]

theorem eq_of_mem_lineFeeds {s : Text} {c : Char} (h : c ∈ s.filter (· = '\n')) : c = '\n' := by
  simpa using List.of_mem_filter h

/-! ## The two passes -/

/-- The first pass: of a comment only its line feeds stay. -/
def withoutComments (s : Text) : Text := (pieces s).flatMap Piece.kept

/-- After white space comes a closing bracket. -/
def closesNext (s : Text) : Bool := (Text.trimStart s).head?.any fun c ↦ c = ']' || c = '}'

/-- The second pass: a comma outside of string literals becomes a space when a closing bracket comes
next. -/
def blankTrailing : Text → Text
  | [] => []
  | c :: s =>
    if c = '"' then c :: (literalRest false s).1 ++ blankTrailing (literalRest false s).2
    else (if c = ',' ∧ closesNext s then ' ' else c) :: blankTrailing s
termination_by s => s.length
decreasing_by
  · exact Nat.lt_succ_of_le (length_literalRest_le false s)
  · exact Nat.lt_succ_self _

theorem withoutComments_nil : withoutComments [] = [] := by
  rw [withoutComments, pieces_nil, List.flatMap_nil]

theorem withoutComments_literal (s : Text) : withoutComments ('"' :: s) =
    '"' :: (literalRest false s).1 ++ withoutComments (literalRest false s).2 := by
  rw [withoutComments, pieces_literal, List.flatMap_cons]
  rfl

theorem withoutComments_lineComment {s : Text} (h : s.head? = some '/') :
    withoutComments ('/' :: s) = withoutComments (s.dropWhile (· ≠ '\n')) := by
  rw [withoutComments, pieces_lineComment h, List.flatMap_cons, kept_lineComment]
  rfl

theorem withoutComments_blockComment (s : Text) : withoutComments ('/' :: '*' :: s) =
    (commentRest s).1.filter (· = '\n') ++ withoutComments (commentRest s).2 := by
  rw [withoutComments, pieces_blockComment, List.flatMap_cons, kept_blockComment]
  rfl

theorem withoutComments_other {c : Char} {s : Text} (hquote : c ≠ '"')
    (hline : ¬ (c = '/' ∧ s.head? = some '/')) (hblock : ¬ (c = '/' ∧ s.head? = some '*')) :
    withoutComments (c :: s) = c :: withoutComments s := by
  rw [withoutComments, pieces_other hquote hline hblock, List.flatMap_cons]
  rfl

theorem blankTrailing_nil : blankTrailing [] = [] := by rw [blankTrailing]

theorem blankTrailing_of_ne {c : Char} (h : c ≠ '"') (s : Text) : blankTrailing (c :: s) =
    (if c = ',' ∧ closesNext s then ' ' else c) :: blankTrailing s := by
  rw [blankTrailing, if_neg h]

theorem blankTrailing_kept {c : Char} (hquote : c ≠ '"') (hcomma : c ≠ ',') (s : Text) :
    blankTrailing (c :: s) = c :: blankTrailing s := by
  rw [blankTrailing_of_ne hquote, if_neg fun h ↦ hcomma h.1]

/-- A literal is read again from a text in which other text stands behind it. -/
theorem literalRest_append_of {escaped : Bool} {s t : Text}
    (h : (literalRest escaped s).2 = [] → t = []) :
    literalRest escaped ((literalRest escaped s).1 ++ t) = ((literalRest escaped s).1, t) := by
  induction s generalizing escaped with
  | nil =>
    have hnil : t = [] := h (by cases escaped <;> rfl)
    subst hnil
    cases escaped <;> rfl
  | cons c s ih =>
    cases escaped with
    | true =>
      rw [literalRest] at h ⊢
      rw [List.cons_append, literalRest, ih h]
    | false =>
      rw [literalRest] at h ⊢
      by_cases hquote : c = '"'
      · rw [if_pos hquote, List.singleton_append, literalRest, if_pos hquote]
      · rw [if_neg hquote] at h ⊢
        rw [List.cons_append, literalRest, if_neg hquote, ih h]

/-- A literal with text behind it ends with its quote. -/
theorem literalRest_closed {escaped : Bool} {s : Text} (h : (literalRest escaped s).2 ≠ []) :
    ∃ body, (literalRest escaped s).1 = body ++ ['"'] := by
  induction s generalizing escaped with
  | nil => cases escaped <;> exact absurd rfl h
  | cons c s ih =>
    cases escaped with
    | true =>
      rw [literalRest] at h ⊢
      obtain ⟨body, hbody⟩ := ih h
      exact ⟨c :: body, congrArg (c :: ·) hbody⟩
    | false =>
      rw [literalRest] at h ⊢
      by_cases hquote : c = '"'
      · subst hquote
        exact ⟨[], rfl⟩
      · rw [if_neg hquote] at h ⊢
        obtain ⟨body, hbody⟩ := ih h
        exact ⟨c :: body, congrArg (c :: ·) hbody⟩

/-- The second pass copies the literals that the first one has copied. -/
theorem blankTrailing_literal (s : Text) :
    blankTrailing ('"' :: (literalRest false s).1 ++ withoutComments (literalRest false s).2) =
      '"' :: (literalRest false s).1 ++
        blankTrailing (withoutComments (literalRest false s).2) := by
  have hopen : (literalRest false s).2 = [] → withoutComments (literalRest false s).2 = [] :=
    fun hnil ↦ hnil ▸ withoutComments_nil
  rw [List.cons_append, blankTrailing, if_pos rfl, literalRest_append_of hopen]

/-! ## The pass in one -/

section Regions

variable (written : Text)

theorem relaxFrom_string (escaped : Bool) (s : Text) :
    relaxFrom (if escaped then .escape else .string) written s =
      relaxFrom .plain ((literalRest escaped s).1.reverse ++ written)
        (literalRest escaped s).2 := by
  induction s generalizing escaped written with
  | nil => cases escaped <;> simp [relaxFrom, literalRest]
  | cons c s ih =>
    cases escaped with
    | true =>
      rw [if_pos rfl, relaxFrom, literalRest, List.reverse_cons, List.append_assoc]
      exact ih (c :: written) false
    | false =>
      rw [if_neg Bool.false_ne_true, relaxFrom, literalRest]
      by_cases hquote : c = '"'
      · subst hquote
        rfl
      · rw [if_neg hquote, if_neg hquote, List.reverse_cons, List.append_assoc,
          List.singleton_append, ← ih (c :: written) (c = '\\')]
        by_cases hback : c = '\\' <;> simp [hback]

theorem relaxFrom_lineComment (s : Text) :
    relaxFrom .lineComment written s = relaxFrom .plain written (s.dropWhile (· ≠ '\n')) := by
  induction s with
  | nil => simp [relaxFrom]
  | cons c s ih =>
    rw [relaxFrom]
    by_cases hfeed : c = '\n'
    · subst hfeed
      simp [relaxFrom]
    · rw [if_neg hfeed, ih, List.dropWhile_cons_of_pos (by simpa using hfeed)]

theorem commentRest_close (s : Text) : commentRest ('*' :: '/' :: s) = (commentEnd, s) := by
  rw [commentRest, Text.breakWhere, if_pos (by simp [commentEnd])]
  rfl

theorem commentRest_cons {c : Char} {s : Text} (h : ¬ commentEnd <+: c :: s) :
    commentRest (c :: s) = (c :: (commentRest s).1, (commentRest s).2) := by
  rw [commentRest, Text.breakWhere, if_neg (by rwa [List.isPrefixOf_iff_prefix]), commentRest]
  cases Text.breakWhere commentEnd.isPrefixOf s <;> rfl

theorem relaxFrom_blockComment (star : Bool) (s : Text) :
    relaxFrom (.blockComment star) written s =
      relaxFrom .plain
        (((commentRest ((if star then ['*'] else []) ++ s)).1.filter (· = '\n')).reverse ++ written)
        (commentRest ((if star then ['*'] else []) ++ s)).2 := by
  induction s generalizing star written with
  | nil =>
    cases star <;> rw [relaxFrom] <;>
      simp [commentRest, Text.breakWhere, commentEnd, relaxFrom]
  | cons c s ih =>
    -- One character inside of the comment, whether or not it is the star of its end.
    have hinside : relaxFrom (.blockComment (c = '*'))
        (if c = '\n' then c :: written else written) s =
          relaxFrom .plain (((commentRest (c :: s)).1.filter (· = '\n')).reverse ++ written)
            (commentRest (c :: s)).2 := by
      rw [ih]
      by_cases hstar : c = '*'
      · subst hstar
        rfl
      · rw [commentRest_cons (by simp [commentEnd, Ne.symm hstar])]
        by_cases hfeed : c = '\n' <;> simp [hstar, hfeed]
    cases star with
    | false =>
      rw [relaxFrom, if_neg (by simp), hinside]
      rfl
    | true =>
      rw [relaxFrom]
      by_cases hclose : c = '/'
      · subst hclose
        rw [if_pos ⟨rfl, rfl⟩, if_pos rfl, List.singleton_append, commentRest_close]
        rfl
      · have hgoes : ¬ commentEnd <+: '*' :: c :: s := by simp [commentEnd, Ne.symm hclose]
        rw [if_neg (fun h ↦ hclose h.2), hinside, if_pos rfl, List.singleton_append,
          commentRest_cons hgoes]
        rfl

end Regions

/-- The result of the pass, from what is written in reverse and what the first pass leaves of the
rest of the text. -/
def finish (written t : Text) : Text :=
  (if closesNext t then blankComma written else written).reverse ++ blankTrailing t

theorem blankComma_comma (written : Text) : blankComma (',' :: written) = ' ' :: written := rfl

theorem blankComma_of_isBlank {c : Char} (h : Text.isBlank c) (written : Text) :
    blankComma (c :: written) = c :: blankComma written := by
  rw [blankComma, List.dropWhile_cons_of_pos h, List.takeWhile_cons_of_pos h, blankComma]
  split <;> rfl

theorem blankComma_of_not_isBlank {c : Char} (h : ¬ Text.isBlank c) (hcomma : c ≠ ',')
    (written : Text) : blankComma (c :: written) = c :: written := by
  rw [blankComma, List.dropWhile_cons_of_neg h]
  split
  · rename_i before heq
    exact absurd (List.cons.inj heq).1 hcomma
  · rfl

theorem closesNext_of_isBlank {c : Char} (h : Text.isBlank c) (t : Text) :
    closesNext (c :: t) = closesNext t := by
  rw [closesNext, Text.trimStart, List.dropWhile_cons_of_pos h]
  rfl

theorem closesNext_of_not_isBlank {c : Char} (h : ¬ Text.isBlank c) (t : Text) :
    closesNext (c :: t) = (c = ']' || c = '}') := by
  rw [closesNext, Text.trimStart, List.dropWhile_cons_of_neg h]
  rfl

theorem finish_nil (written : Text) : finish written [] = written.reverse := by
  rw [finish, blankTrailing_nil, List.append_nil]
  rfl

theorem finish_bracket {c : Char} (h : c = ']' ∨ c = '}') (written t : Text) :
    finish (c :: blankComma written) t = finish written (c :: t) := by
  have hblank : ¬ Text.isBlank c := by rcases h with rfl | rfl <;> decide
  have hcomma : c ≠ ',' := by rcases h with rfl | rfl <;> decide
  have hquote : c ≠ '"' := by rcases h with rfl | rfl <;> decide
  have hcloses : (c = ']' || c = '}') = true := by simpa using h
  rw [finish, blankComma_of_not_isBlank hblank hcomma, ite_self, finish,
    closesNext_of_not_isBlank hblank, if_pos hcloses, blankTrailing_kept hquote hcomma,
    List.reverse_cons, List.append_assoc, List.singleton_append]

theorem finish_of_ne {c : Char} (hquote : c ≠ '"') (hbracket : ¬ (c = ']' ∨ c = '}'))
    (written t : Text) : finish (c :: written) t = finish written (c :: t) := by
  rw [finish, finish]
  by_cases hblank : Text.isBlank c
  · have hcomma : c ≠ ',' := by
      rintro rfl
      exact absurd hblank (by decide)
    rw [blankComma_of_isBlank hblank, closesNext_of_isBlank hblank,
      blankTrailing_kept hquote hcomma]
    split <;> simp
  · have hcloses : (c = ']' || c = '}') = false := by simpa using hbracket
    rw [closesNext_of_not_isBlank hblank, hcloses]
    by_cases hcomma : c = ','
    · subst hcomma
      rw [blankComma_comma, blankTrailing_of_ne hquote]
      by_cases hnext : closesNext t <;> simp [hnext]
    · rw [blankComma_of_not_isBlank hblank hcomma, blankTrailing_kept hquote hcomma]
      simp

theorem finish_lineFeeds {feeds : Text} (h : ∀ c ∈ feeds, c = '\n') (written t : Text) :
    finish (feeds.reverse ++ written) t = finish written (feeds ++ t) := by
  induction feeds generalizing written with
  | nil => rfl
  | cons c feeds ih =>
    have hfeed : c = '\n' := h c List.mem_cons_self
    subst hfeed
    calc finish (('\n' :: feeds).reverse ++ written) t
        = finish (feeds.reverse ++ '\n' :: written) t := by
          rw [List.reverse_cons, List.append_assoc, List.singleton_append]
      _ = finish ('\n' :: written) (feeds ++ t) := ih (fun d hd ↦ h d (List.mem_cons_of_mem _ hd)) _
      _ = finish written ('\n' :: feeds ++ t) := finish_of_ne (by decide) (by decide) _ _

/-- No comma of a literal is blanked: one that ends at all ends with a quote. -/
theorem finish_literal (written s : Text) :
    finish ((literalRest false s).1.reverse ++ '"' :: written)
        (withoutComments (literalRest false s).2) =
      finish written
        ('"' :: (literalRest false s).1 ++ withoutComments (literalRest false s).2) := by
  have hkept : closesNext (withoutComments (literalRest false s).2) →
      blankComma ((literalRest false s).1.reverse ++ '"' :: written) =
        (literalRest false s).1.reverse ++ '"' :: written := by
    intro hcloses
    have hne : (literalRest false s).2 ≠ [] := by
      intro hnil
      rw [hnil, withoutComments_nil] at hcloses
      exact absurd hcloses (by decide)
    obtain ⟨body, hbody⟩ := literalRest_closed hne
    rw [hbody, List.reverse_append]
    exact blankComma_of_not_isBlank (by decide) (by decide) _
  have hopens : closesNext
      ('"' :: (literalRest false s).1 ++ withoutComments (literalRest false s).2) = false :=
    closesNext_of_not_isBlank (by decide) _
  rw [finish, ite_eq_right_iff.mpr hkept, finish, hopens, if_neg Bool.false_ne_true,
    blankTrailing_literal]
  simp

theorem relaxFrom_plain (written s : Text) :
    relaxFrom .plain written s = finish written (withoutComments s) := by
  induction s using pieces_induction generalizing written with
  | nil => rw [relaxFrom, withoutComments_nil, finish_nil]
  | literal s ih =>
    calc relaxFrom .plain written ('"' :: s)
        = relaxFrom .string ('"' :: written) s := by rw [relaxFrom, if_pos rfl]
      _ = relaxFrom .plain ((literalRest false s).1.reverse ++ '"' :: written)
            (literalRest false s).2 := relaxFrom_string _ false s
      _ = finish ((literalRest false s).1.reverse ++ '"' :: written)
            (withoutComments (literalRest false s).2) := ih _
      _ = finish written (withoutComments ('"' :: s)) := by
          rw [finish_literal, withoutComments_literal]
  | lineComment s h ih =>
    calc relaxFrom .plain written ('/' :: s)
        = relaxFrom .lineComment written s := by
          rw [relaxFrom, if_neg (by decide), if_pos ⟨rfl, h⟩]
      _ = relaxFrom .plain written (s.dropWhile (· ≠ '\n')) := relaxFrom_lineComment _ s
      _ = finish written (withoutComments ('/' :: s)) := by
          rw [ih, withoutComments_lineComment h]
  | blockComment s ih =>
    calc relaxFrom .plain written ('/' :: '*' :: s)
        = relaxFrom (.blockComment false) written s := by
          rw [relaxFrom, if_neg (by decide), if_neg (by simp), if_pos ⟨rfl, rfl⟩, relaxFrom]
      _ = relaxFrom .plain (((commentRest s).1.filter (· = '\n')).reverse ++ written)
            (commentRest s).2 := relaxFrom_blockComment _ false s
      _ = finish (((commentRest s).1.filter (· = '\n')).reverse ++ written)
            (withoutComments (commentRest s).2) := ih _
      _ = finish written (withoutComments ('/' :: '*' :: s)) := by
          rw [finish_lineFeeds fun c ↦ eq_of_mem_lineFeeds, withoutComments_blockComment]
  | other c s hquote hline hblock ih =>
    rw [withoutComments_other hquote hline hblock, relaxFrom, if_neg hquote, if_neg hline,
      if_neg hblock]
    by_cases hbracket : c = ']' ∨ c = '}'
    · rw [if_pos hbracket, ih, finish_bracket hbracket]
    · rw [if_neg hbracket, ih, finish_of_ne hquote hbracket]

/-! ## What is left of each piece -/

/-- A literal or a character is copied, a comment gives way to its line feeds, and a comma may
become a space. -/
inductive Piece.CopiedTo : Piece → Text → Prop
  | literal (t : Text) : CopiedTo (.literal t) t
  | comment (t : Text) : CopiedTo (.comment t) (t.filter (· = '\n'))
  | other (c : Char) : CopiedTo (.other c) [c]
  | comma : CopiedTo (.other ',') [' ']

/-- What the two passes leave of each of the pieces. -/
def copies : List Piece → List Text
  | [] => []
  | p :: rest =>
    (if p = .other ',' ∧ closesNext (rest.flatMap Piece.kept) then [' '] else p.kept) ::
      copies rest

/-- Among the pieces stands a comma with nothing but white space before the next bracket. -/
def HasTrailingComma (ps : List Piece) : Prop :=
  ∃ before after, ps = before ++ .other ',' :: after ∧ closesNext (after.flatMap Piece.text)

theorem Piece.copiedTo_kept (p : Piece) : p.CopiedTo p.kept := by
  cases p with
  | literal t => exact .literal t
  | comment t => exact .comment t
  | other c => exact .other c

theorem Piece.kept_of_not_isComment {p : Piece} (h : ¬ p.IsComment) : p.kept = p.text := by
  cases p with
  | literal t => rfl
  | comment t => exact absurd ⟨t, rfl⟩ h
  | other c => rfl

theorem forall₂_copiedTo_copies (ps : List Piece) :
    List.Forall₂ Piece.CopiedTo ps (copies ps) := by
  induction ps with
  | nil => exact .nil
  | cons p rest ih =>
    apply List.Forall₂.cons _ ih
    split
    · rename_i h
      exact h.1 ▸ .comma
    · exact p.copiedTo_kept

theorem blankTrailing_lineFeeds {feeds : Text} (h : ∀ c ∈ feeds, c = '\n') (t : Text) :
    blankTrailing (feeds ++ t) = feeds ++ blankTrailing t := by
  induction feeds with
  | nil => rfl
  | cons c feeds ih =>
    have hfeed : c = '\n' := h c List.mem_cons_self
    subst hfeed
    rw [List.cons_append, blankTrailing_kept (by decide) (by decide),
      ih fun d hd ↦ h d (List.mem_cons_of_mem _ hd), List.cons_append]

theorem copies_cons_of_ne {p : Piece} (h : p ≠ .other ',') (rest : List Piece) :
    copies (p :: rest) = p.kept :: copies rest := by
  rw [copies, if_neg fun hp ↦ h hp.1]

theorem blankTrailing_withoutComments (s : Text) :
    blankTrailing (withoutComments s) = (copies (pieces s)).flatten := by
  induction s using pieces_induction with
  | nil => rw [withoutComments_nil, blankTrailing_nil, pieces_nil, copies, List.flatten_nil]
  | literal s ih =>
    rw [withoutComments_literal, blankTrailing_literal, ih, pieces_literal,
      copies_cons_of_ne (by simp), List.flatten_cons]
    rfl
  | lineComment s h ih =>
    rw [withoutComments_lineComment h, ih, pieces_lineComment h, copies_cons_of_ne (by simp),
      List.flatten_cons, kept_lineComment, List.nil_append]
  | blockComment s ih =>
    rw [withoutComments_blockComment, blankTrailing_lineFeeds fun c ↦ eq_of_mem_lineFeeds, ih,
      pieces_blockComment, copies_cons_of_ne (by simp), List.flatten_cons, kept_blockComment]
  | other c s hquote hline hblock ih =>
    rw [withoutComments_other hquote hline hblock, blankTrailing_of_ne hquote, ih,
      pieces_other hquote hline hblock, copies, List.flatten_cons, withoutComments]
    by_cases hnext : c = ',' ∧ closesNext ((pieces s).flatMap Piece.kept)
    · rw [if_pos hnext, if_pos ⟨congrArg Piece.other hnext.1, hnext.2⟩, List.singleton_append]
    · rw [if_neg hnext, if_neg fun h ↦ hnext ⟨Piece.other.inj h.1, h.2⟩]
      rfl

/-! ## Texts that stay as they are -/

theorem head?_of_comment_mem_pieces {s t : Text} (h : .comment t ∈ pieces s) :
    t.head? = some '/' := by
  induction s using pieces_induction with
  | nil => simp [pieces_nil] at h
  | literal s ih =>
    rw [pieces_literal] at h
    exact ih ((List.mem_cons.mp h).resolve_left (by simp))
  | lineComment s hnext ih =>
    rw [pieces_lineComment hnext] at h
    rcases List.mem_cons.mp h with heq | hrest
    · rw [Piece.comment.inj heq, List.head?_cons]
    · exact ih hrest
  | blockComment s ih =>
    rw [pieces_blockComment] at h
    rcases List.mem_cons.mp h with heq | hrest
    · rw [Piece.comment.inj heq, List.head?_cons]
    · exact ih hrest
  | other c s hquote hline hblock ih =>
    rw [pieces_other hquote hline hblock] at h
    exact ih ((List.mem_cons.mp h).resolve_left (by simp))

theorem length_copy_le {p : Piece} {out : Text} (h : p.CopiedTo out) :
    out.length ≤ p.text.length := by
  cases h with
  | literal t => exact le_rfl
  | comment t => exact List.length_filter_le _ _
  | other c => exact le_rfl
  | comma => exact le_rfl

theorem length_flatten_le {ps : List Piece} {outs : List Text}
    (h : List.Forall₂ Piece.CopiedTo ps outs) :
    outs.flatten.length ≤ (ps.flatMap Piece.text).length := by
  induction h with
  | nil => exact le_rfl
  | cons hp _ ih =>
    rw [List.flatten_cons, List.flatMap_cons, List.length_append, List.length_append]
    exact Nat.add_le_add (length_copy_le hp) ih

/-- A comment loses its slash. -/
theorem length_kept_lt {t : Text} (h : t.head? = some '/') :
    (Piece.comment t).kept.length < t.length := by
  obtain ⟨s, rfl⟩ := List.head?_eq_some_iff.mp h
  rw [Piece.kept, List.filter_cons_of_neg (by decide), List.length_cons]
  exact Nat.lt_succ_of_le (List.length_filter_le _ _)

/-- Nothing that is left of a piece is longer than the piece, so a text that stays as it is has no
piece that became shorter. -/
theorem eq_map_text_of_flatten_eq {ps : List Piece} {outs : List Text}
    (hslash : ∀ t, .comment t ∈ ps → t.head? = some '/')
    (hcopied : List.Forall₂ Piece.CopiedTo ps outs) (h : outs.flatten = ps.flatMap Piece.text) :
    (∀ p ∈ ps, ¬ p.IsComment) ∧ outs = ps.map Piece.text := by
  induction hcopied with
  | nil => exact ⟨fun p hp ↦ absurd hp List.not_mem_nil, rfl⟩
  | @cons p out rest outs hp hrest ih =>
    rw [List.flatten_cons, List.flatMap_cons] at h
    have hsame : out.length = p.text.length := by
      have hlength := congrArg List.length h
      rw [List.length_append, List.length_append] at hlength
      have hfirst := length_copy_le hp
      have hothers := length_flatten_le hrest
      omega
    obtain ⟨hout, hflatten⟩ := List.append_inj h hsame
    obtain ⟨hcomments, houts⟩ := ih (fun t ht ↦ hslash t (List.mem_cons_of_mem _ ht)) hflatten
    have hfirst : ¬ p.IsComment := by
      rintro ⟨t, rfl⟩
      cases hp
      exact absurd hsame (Nat.ne_of_lt (length_kept_lt (hslash t List.mem_cons_self)))
    refine ⟨fun q hq ↦ ?_, ?_⟩
    · rcases List.mem_cons.mp hq with rfl | hq
      · exact hfirst
      · exact hcomments q hq
    · rw [hout, houts, List.map_cons]

theorem hasTrailingComma_cons {p : Piece} {rest : List Piece} : HasTrailingComma (p :: rest) ↔
    (p = .other ',' ∧ closesNext (rest.flatMap Piece.text)) ∨ HasTrailingComma rest := by
  constructor
  · rintro ⟨before, after, heq, hcloses⟩
    cases before with
    | nil =>
      obtain ⟨rfl, rfl⟩ := List.cons.inj heq
      exact .inl ⟨rfl, hcloses⟩
    | cons q before => exact .inr ⟨before, after, (List.cons.inj heq).2, hcloses⟩
  · rintro (⟨rfl, hcloses⟩ | ⟨before, after, rfl, hcloses⟩)
    · exact ⟨[], rest, rfl, hcloses⟩
    · exact ⟨p :: before, after, rfl, hcloses⟩

theorem flatMap_kept_eq {ps : List Piece} (h : ∀ p ∈ ps, ¬ p.IsComment) :
    ps.flatMap Piece.kept = ps.flatMap Piece.text :=
  List.flatMap_congr fun p hp ↦ Piece.kept_of_not_isComment (h p hp)

theorem copies_eq_map_text_iff {ps : List Piece} (h : ∀ p ∈ ps, ¬ p.IsComment) :
    copies ps = ps.map Piece.text ↔ ¬ HasTrailingComma ps := by
  induction ps with
  | nil =>
    refine iff_of_true rfl ?_
    rintro ⟨before, after, heq, -⟩
    exact absurd heq (by simp)
  | cons p rest ih =>
    have hrest : ∀ q ∈ rest, ¬ q.IsComment := fun q hq ↦ h q (List.mem_cons_of_mem _ hq)
    rw [hasTrailingComma_cons, not_or, ← ih hrest, copies, flatMap_kept_eq hrest,
      Piece.kept_of_not_isComment (h p List.mem_cons_self), List.map_cons, List.cons.injEq]
    apply and_congr_left'
    by_cases hnext : p = .other ',' ∧ closesNext (rest.flatMap Piece.text)
    · rw [if_pos hnext, hnext.1]
      exact iff_of_false (by simp [Piece.text]) (fun hnot ↦ hnot ⟨rfl, hnext.2⟩)
    · rw [if_neg hnext]
      exact iff_of_true rfl hnext

/-- The pass of the library agrees with the two passes on every text. The string literals come out
as they are, whatever is left of the pieces around them, and the text stays as it is exactly when
it has no comment and no trailing comma. -/
theorem relax_eq_two_passes (s : Text) :
    relax s = blankTrailing (withoutComments s) ∧
    (pieces s).flatMap Piece.text = s ∧
    (∃ outs, relax s = outs.flatten ∧ List.Forall₂ Piece.CopiedTo (pieces s) outs) ∧
    (relax s = s ↔ (∀ p ∈ pieces s, ¬ p.IsComment) ∧ ¬ HasTrailingComma (pieces s)) := by
  have htwo : relax s = blankTrailing (withoutComments s) := by
    rw [relax, relaxFrom_plain, finish]
    split <;> rfl
  have hcopies : relax s = (copies (pieces s)).flatten :=
    htwo.trans (blankTrailing_withoutComments s)
  refine ⟨htwo, flatMap_text_pieces s, ⟨_, hcopies, forall₂_copiedTo_copies _⟩, ?_⟩
  have hwhole : relax s = s ↔
      (copies (pieces s)).flatten = (pieces s).flatMap Piece.text := by
    rw [hcopies, flatMap_text_pieces]
  rw [hwhole]
  constructor
  · intro h
    obtain ⟨hcomments, htexts⟩ := eq_map_text_of_flatten_eq
      (fun t ↦ head?_of_comment_mem_pieces) (forall₂_copiedTo_copies _) h
    exact ⟨hcomments, (copies_eq_map_text_iff hcomments).mp htexts⟩
  · rintro ⟨hcomments, htrailing⟩
    rw [(copies_eq_map_text_iff hcomments).mpr htrailing, List.flatMap_def]

/-- Comments between a trailing comma and its bracket, one of them over two lines, a slash behind
the opening of a comment, and a literal that looks like a comment. -/
example : relax "[\"//,]\", /*/ */ 1, // ,\n /*\n]*/ ]".toList =
    "[\"//,]\",  1  \n \n ]".toList := by
  decide +kernel

end FencedCode.Json
