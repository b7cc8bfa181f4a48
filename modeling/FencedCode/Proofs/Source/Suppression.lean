import FencedCode.Proofs.Source.Directive
import FencedCode.Proofs.Text.Removal
import FencedCode.Source.Suppression

/-!
# Lines without suppression comments

A suppression comment ends with its line, so each line is cut where its first comment begins. What
is left of such a line goes when it is blank, together with the blank lines before it, and all other
lines stay as they are. A piece that is kept ends where a line ends, so no comment comes about where
two pieces meet.
-/

namespace FencedCode

open Text

/-- The text is empty, or begins with a line feed. -/
def AtLineBreak (s : Text) : Prop := ∀ c ∈ s.head?, c = '\n'

theorem atLineBreak_nil : AtLineBreak [] := by simp [AtLineBreak]

@[simp] theorem atLineBreak_cons (s : Text) : AtLineBreak ('\n' :: s) := by simp [AtLineBreak]

theorem AtLineBreak.append {s t : Text} (hs : AtLineBreak s) (ht : AtLineBreak t) :
    AtLineBreak (s ++ t) := by
  cases s with
  | nil => exact ht
  | cons c s => exact hs

theorem AtLineBreak.of_append {s t : Text} (h : AtLineBreak (s ++ t)) : AtLineBreak s := by
  cases s with
  | nil => exact atLineBreak_nil
  | cons c s => exact h

/-! ## Comments in a line -/

/-- A suppression comment begins here. -/
def BeginsSuppression (s : Text) : Prop :=
  "// @ts-ignore".toList <+: s ∨ "// @ts-expect-error".toList <+: s

instance (s : Text) : Decidable (BeginsSuppression s) := inferInstanceAs (Decidable (_ ∨ _))

/-- No suppression comment begins anywhere in the text. -/
def SuppressionFree (s : Text) : Prop := ∀ tail, tail <:+ s → ¬ BeginsSuppression tail

/-- The line up to its first comment: its shortest beginning behind which one begins. -/
def beforeComment (line : Text) : Text :=
  (line.inits.find? fun front ↦ BeginsSuppression (line.drop front.length)).getD line

theorem startsSuppression_iff {s : Text} : startsSuppression s ↔ BeginsSuppression s := by
  simp [startsSuppression, suppressionMarks, BeginsSuppression]

theorem not_beginsSuppression_nil : ¬ BeginsSuppression [] := by decide

/-- A comment does not reach over a line feed. -/
theorem beginsSuppression_append_iff {rest : Text} (hrest : AtLineBreak rest) (s : Text) :
    BeginsSuppression (s ++ rest) ↔ BeginsSuppression s := by
  cases rest with
  | nil => rw [List.append_nil]
  | cons c rest =>
    obtain rfl : c = '\n' := hrest c rfl
    have hmark {mark : Text} (h : '\n' ∉ mark) : mark <+: s ++ '\n' :: rest ↔ mark <+: s :=
      ⟨prefix_of_prefix_append_cons h, fun hs ↦ hs.trans (List.prefix_append s _)⟩
    rw [BeginsSuppression, hmark (by decide), hmark (by decide), BeginsSuppression]

theorem suppressionFree_cons_iff {c : Char} {s : Text} :
    SuppressionFree (c :: s) ↔ ¬ BeginsSuppression (c :: s) ∧ SuppressionFree s := by
  unfold SuppressionFree
  simp only [List.suffix_cons_iff, forall_eq_or_imp]

theorem suppressionFree_nil : SuppressionFree [] := by
  intro tail htail
  rw [List.suffix_nil.mp htail]
  exact not_beginsSuppression_nil

theorem suppressionFree_iff {s : Text} : SuppressionFree s ↔
    ¬ "// @ts-ignore".toList <:+: s ∧ ¬ "// @ts-expect-error".toList <:+: s := by
  simp only [SuppressionFree, BeginsSuppression, not_or, List.infix_iff_prefix_suffix, not_exists,
    not_and]
  constructor
  · intro h
    exact ⟨fun tail hprefix hsuffix ↦ (h tail hsuffix).1 hprefix,
      fun tail hprefix hsuffix ↦ (h tail hsuffix).2 hprefix⟩
  · intro h tail hsuffix
    exact ⟨fun hprefix ↦ h.1 tail hprefix hsuffix, fun hprefix ↦ h.2 tail hprefix hsuffix⟩

@[simp] theorem beforeComment_nil : beforeComment [] = [] := by decide

theorem beforeComment_cons (c : Char) (s : Text) :
    beforeComment (c :: s) = if BeginsSuppression (c :: s) then [] else c :: beforeComment s := by
  unfold beforeComment
  rw [List.inits_cons]
  split
  · rename_i hbegins
    rw [List.find?_cons_of_pos (by simpa using hbegins), Option.getD_some]
  · rename_i hbegins
    rw [List.find?_cons_of_neg (by simpa using hbegins), List.find?_map]
    simp only [Function.comp_def, List.length_cons, List.drop_succ_cons]
    cases List.find? _ s.inits <;> rfl

theorem beforeComment_of_free {line : Text} (h : SuppressionFree line) :
    beforeComment line = line := by
  induction line with
  | nil => exact beforeComment_nil
  | cons c s ih =>
    rw [suppressionFree_cons_iff] at h
    rw [beforeComment_cons, if_neg h.1, ih h.2]

theorem beforeComment_prefix_self (line : Text) : beforeComment line <+: line := by
  induction line with
  | nil => exact List.prefix_rfl
  | cons c s ih =>
    rw [beforeComment_cons]
    split
    · exact List.nil_prefix
    · exact (List.prefix_cons_inj c).mpr ih

/-- In front of the first comment there is none. -/
theorem suppressionFree_beforeComment (line : Text) : SuppressionFree (beforeComment line) := by
  induction line with
  | nil => exact suppressionFree_nil
  | cons c s ih =>
    rw [beforeComment_cons]
    split
    · exact suppressionFree_nil
    · rename_i hnot
      refine suppressionFree_cons_iff.mpr ⟨fun hbegins ↦ hnot ?_, ih⟩
      have hprefix : c :: beforeComment s <+: c :: s :=
        (List.prefix_cons_inj c).mpr (beforeComment_prefix_self s)
      exact hbegins.imp (·.trans hprefix) (·.trans hprefix)

/-! ## The pass along a line -/

variable {line rest : Text}

theorem stripFrom_true_append (h : '\n' ∉ line) (rest : Text) :
    stripFrom true [] (line ++ rest) = stripFrom true [] rest := by
  induction line with
  | nil => rfl
  | cons c s ih =>
    rw [List.cons_append, stripFrom, if_pos rfl, if_neg (Ne.symm (List.ne_of_not_mem_cons h)),
      ih (List.not_mem_of_not_mem_cons h)]

/-- A line without a comment is read on, and of any other line the part in front of the first
comment is written. -/
theorem stripFrom_append (hline : '\n' ∉ line) (hrest : AtLineBreak rest) (read : Text) :
    (SuppressionFree line ∧
      stripFrom false read.reverse (line ++ rest) = stripFrom false (read ++ line).reverse rest) ∨
    stripFrom false read.reverse (line ++ rest) =
      keptBefore (read ++ beforeComment line) ++ stripFrom true [] rest := by
  induction line generalizing read with
  | nil => exact .inl ⟨suppressionFree_nil, by rw [List.append_nil, List.nil_append]⟩
  | cons c s ih =>
    have hbegins : startsSuppression (c :: (s ++ rest)) ↔ BeginsSuppression (c :: s) :=
      startsSuppression_iff.trans (beginsSuppression_append_iff hrest (c :: s))
    rw [List.cons_append, stripFrom, if_neg Bool.false_ne_true, beforeComment_cons]
    by_cases hcomment : BeginsSuppression (c :: s)
    · right
      rw [if_pos (hbegins.mpr hcomment), if_pos hcomment, List.reverse_reverse, List.append_nil,
        stripFrom_true_append (List.not_mem_of_not_mem_cons hline)]
    · have hread : c :: read.reverse = (read ++ [c]).reverse := by simp
      rw [if_neg (mt hbegins.mp hcomment), if_neg hcomment, hread, suppressionFree_cons_iff,
        List.append_cons read c s, List.append_cons read c (beforeComment s)]
      exact (ih (List.not_mem_of_not_mem_cons hline) (read ++ [c])).imp_left
        fun hfree ↦ ⟨⟨hcomment, hfree.1⟩, hfree.2⟩

/-- The pass along the last line. -/
theorem stripFrom_last (h : '\n' ∉ line) (read : Text) :
    (SuppressionFree line ∧ stripFrom false read.reverse line = read ++ line) ∨
      stripFrom false read.reverse line = keptBefore (read ++ beforeComment line) := by
  have hpass := stripFrom_append h atLineBreak_nil read
  rwa [List.append_nil, stripFrom, List.reverse_reverse, stripFrom, List.reverse_nil,
    List.append_nil] at hpass

/-- The pass along a line with a line feed behind it. -/
theorem stripFrom_body_append (h : '\n' ∉ line) (read rest : Text) :
    (SuppressionFree line ∧ stripFrom false read.reverse (line ++ '\n' :: rest) =
      stripFrom false (read ++ (line ++ ['\n'])).reverse rest) ∨
    stripFrom false read.reverse (line ++ '\n' :: rest) =
      keptBefore (read ++ beforeComment line) ++ stripFrom false ['\n'].reverse rest := by
  have hpass := stripFrom_append h (atLineBreak_cons rest) read
  have hfeed : startsSuppression ('\n' :: rest) = false := rfl
  rw [stripFrom, if_neg Bool.false_ne_true, hfeed, if_neg Bool.false_ne_true, stripFrom,
    if_pos rfl, if_pos rfl] at hpass
  have hreverse : (read ++ (line ++ ['\n'])).reverse = '\n' :: (read ++ line).reverse := by simp
  rw [hreverse]
  exact hpass

/-! ## Lines that are not blank -/

/-- The lines that are not blank. -/
def inkedLines (s : Text) : List Text := (lines s).filter fun line ↦ !allBlank line

theorem inkedLines_append_cons (s t : Text) :
    inkedLines (s ++ '\n' :: t) = inkedLines s ++ inkedLines t := by
  rw [inkedLines, lines_append_cons, List.filter_append, inkedLines, inkedLines]

theorem inkedLines_of_notMem (h : '\n' ∉ line) :
    inkedLines line = [line].filter fun line ↦ !allBlank line := by
  rw [inkedLines, lines_of_notMem h]

@[simp] theorem inkedLines_nil : inkedLines [] = [] := rfl

theorem inkedLines_of_allBlank {s : Text} (h : allBlank s) : inkedLines s = [] := by
  induction s using row_induction with
  | nil => rfl
  | last row _ hnot => simp [inkedLines_of_notMem hnot, h]
  | cons body rest hbody ih =>
    simp only [allBlank, List.all_append, List.all_cons, Bool.and_eq_true] at h
    rw [inkedLines_append_cons, ih h.2.2, List.append_nil]
    simp [inkedLines_of_notMem hbody, allBlank, h.1]

theorem inkedLines_append {s : Text} (hs : Terminated s) (t : Text) :
    inkedLines (s ++ t) = inkedLines s ++ inkedLines t := by
  by_cases hnil : s = []
  · rw [hnil]
    rfl
  · obtain ⟨front, rfl⟩ := hs.exists_append hnil
    have hfront : inkedLines (front ++ ['\n']) = inkedLines front ++ inkedLines [] :=
      inkedLines_append_cons front []
    rw [hfront, inkedLines_nil, List.append_nil, List.append_assoc, List.singleton_append,
      inkedLines_append_cons]

theorem inkedLines_append_of_atLineBreak {t : Text} (ht : AtLineBreak t) (s : Text) :
    inkedLines (s ++ t) = inkedLines s ++ inkedLines t := by
  cases t with
  | nil => rw [List.append_nil, inkedLines_nil, List.append_nil]
  | cons c t =>
    obtain rfl : c = '\n' := ht c rfl
    have hline : inkedLines ('\n' :: t) = inkedLines t := inkedLines_append_cons [] t
    rw [inkedLines_append_cons, hline]

/-! ## What is kept in front of a comment -/

theorem keptBefore_spec (s : Text) : keptBefore s = s ∨
    ∃ blank, allBlank blank ∧ s = keptBefore s ++ '\n' :: blank := by
  obtain ⟨gap, hgap, hs⟩ := exists_trimEnd s
  have hdrop : s.drop (trimEnd s).length = gap := by
    calc
      s.drop (trimEnd s).length = (trimEnd s ++ gap).drop (trimEnd s).length := by rw [← hs]
      _ = gap := List.drop_left
  unfold keptBefore
  dsimp only
  rw [hdrop]
  split
  · rename_i hmem
    obtain ⟨body, blank, rfl, hbody⟩ := List.eq_append_cons_of_mem hmem
    have hline : ∀ c ∈ body, decide (c ≠ '\n') = true := by
      intro c hc
      rw [decide_eq_true_eq]
      rintro rfl
      exact hbody hc
    rw [List.takeWhile_append_of_pos hline, List.takeWhile_cons_of_neg (by simp), List.append_nil]
    simp only [allBlank, List.all_append, List.all_cons, Bool.and_eq_true] at hgap
    exact .inr ⟨blank, hgap.2.2, by rw [List.append_assoc, ← hs]⟩
  · exact .inl rfl

theorem inkedLines_keptBefore (s : Text) : inkedLines (keptBefore s) = inkedLines s := by
  rcases keptBefore_spec s with hsame | ⟨blank, hblank, hs⟩
  · rw [hsame]
  · calc
      inkedLines (keptBefore s) = inkedLines (keptBefore s ++ '\n' :: blank) := by
        rw [inkedLines_append_cons, inkedLines_of_allBlank hblank, List.append_nil]
      _ = inkedLines s := by rw [← hs]

theorem AtLineBreak.keptBefore {s : Text} (h : AtLineBreak s) :
    AtLineBreak (FencedCode.keptBefore s) := by
  rcases keptBefore_spec s with hsame | ⟨blank, -, hs⟩
  · rwa [hsame]
  · rw [hs] at h
    exact h.of_append

/-! ## The lines of the result -/

/-- What is read behind a line feed is written behind it, or not at all. -/
theorem atLineBreak_stripFrom (read s : Text) :
    AtLineBreak (stripFrom false ('\n' :: read).reverse s) := by
  induction s using row_induction generalizing read with
  | nil =>
    rw [stripFrom, List.reverse_reverse]
    exact atLineBreak_cons read
  | last row _ hnot =>
    rcases stripFrom_last hnot ('\n' :: read) with ⟨-, hread⟩ | hcut
    · rw [hread]
      exact atLineBreak_cons _
    · rw [hcut]
      exact (atLineBreak_cons _).keptBefore
  | cons body rest hbody ih =>
    rcases stripFrom_body_append hbody ('\n' :: read) rest with ⟨-, hread⟩ | hcut
    · rw [hread]
      exact ih _
    · rw [hcut]
      exact (atLineBreak_cons _).keptBefore.append (ih [])

/-- The lines of the code, each cut where its first comment begins, without those that are then
blank. -/
def cutLines (code : Text) : List Text :=
  ((lines code).map beforeComment).filter fun line ↦ !allBlank line

theorem cutLines_of_notMem (h : '\n' ∉ line) :
    cutLines line = inkedLines (beforeComment line) := by
  have hnot : '\n' ∉ beforeComment line := fun hmem ↦
    h ((beforeComment_prefix_self line).subset hmem)
  rw [cutLines, lines_of_notMem h, inkedLines_of_notMem hnot, List.map_singleton]

theorem cutLines_body_append (h : '\n' ∉ line) (rest : Text) :
    cutLines (line ++ '\n' :: rest) = inkedLines (beforeComment line) ++ cutLines rest := by
  rw [← cutLines_of_notMem h, cutLines, lines_append_cons, List.map_append, List.filter_append,
    cutLines, cutLines]

/-- What is read up to a line feed keeps its lines, and those of the rest are cut. -/
theorem inkedLines_stripFrom {read : Text} (hread : Terminated read) (s : Text) :
    inkedLines (stripFrom false read.reverse s) = inkedLines read ++ cutLines s := by
  induction s using row_induction generalizing read with
  | nil =>
    have hnone : cutLines [] = [] := rfl
    rw [stripFrom, List.reverse_reverse, hnone, List.append_nil]
  | last row _ hnot =>
    rw [cutLines_of_notMem hnot, ← inkedLines_append hread]
    rcases stripFrom_last hnot read with ⟨hfree, hpass⟩ | hcut
    · rw [hpass, beforeComment_of_free hfree]
    · rw [hcut, inkedLines_keptBefore]
  | cons body rest hbody ih =>
    have hfeed : Terminated ['\n'] := terminated_append_singleton []
    rw [cutLines_body_append hbody, ← List.append_assoc, ← inkedLines_append hread]
    rcases stripFrom_body_append hbody read rest with ⟨hfree, hpass⟩ | hcut
    · rw [hpass, ih (hread.append (terminated_append_singleton body)), ← List.append_assoc,
        beforeComment_of_free hfree, inkedLines_append_cons, inkedLines_nil, List.append_nil]
    · rw [hcut, inkedLines_append_of_atLineBreak (atLineBreak_stripFrom [] rest),
        inkedLines_keptBefore, ih hfeed]
      rfl

/-! ## No comment is left -/

theorem stripFrom_of_free {s : Text} (h : SuppressionFree s) (before : Text) :
    stripFrom false before s = before.reverse ++ s := by
  induction s generalizing before with
  | nil => rw [stripFrom, List.append_nil]
  | cons c s ih =>
    rw [suppressionFree_cons_iff] at h
    rw [stripFrom, if_neg Bool.false_ne_true, if_neg (mt startsSuppression_iff.mp h.1), ih h.2,
      List.reverse_cons, List.append_assoc, List.singleton_append]

theorem suppressionFree_append_cons {s t : Text} (hs : SuppressionFree s)
    (ht : SuppressionFree t) : SuppressionFree (s ++ '\n' :: t) := by
  induction s with
  | nil => exact suppressionFree_cons_iff.mpr ⟨by simp [BeginsSuppression], ht⟩
  | cons c s ih =>
    rw [suppressionFree_cons_iff] at hs
    refine suppressionFree_cons_iff.mpr ⟨fun hbegins ↦ hs.1 ?_, ih hs.2⟩
    exact (beginsSuppression_append_iff (atLineBreak_cons t) (c :: s)).mp hbegins

theorem suppressionFree_of_allBlank {s : Text} (h : allBlank s) : SuppressionFree s := by
  have hslash : '/' ∉ s := fun hmem ↦ absurd (allBlank_iff.mp h '/' hmem) (by decide)
  rw [suppressionFree_iff]
  exact ⟨fun hignore ↦ hslash (hignore.subset (by decide)),
    fun hexpect ↦ hslash (hexpect.subset (by decide))⟩

/-- A comment stands in a line that is not blank. -/
theorem suppressionFree_of_inkedLines {s : Text} (h : ∀ line ∈ inkedLines s, SuppressionFree line) :
    SuppressionFree s := by
  have hline {line : Text} (hnot : '\n' ∉ line) (h : ∀ l ∈ inkedLines line, SuppressionFree l) :
      SuppressionFree line := by
    by_cases hblank : allBlank line
    · exact suppressionFree_of_allBlank hblank
    · rw [inkedLines_of_notMem hnot, List.filter_cons_of_pos (by simpa using hblank)] at h
      exact h line List.mem_cons_self
  induction s using row_induction with
  | nil => exact suppressionFree_nil
  | last row _ hnot => exact hline hnot h
  | cons body rest hbody ih =>
    rw [inkedLines_append_cons, List.forall_mem_append] at h
    exact suppressionFree_append_cons (hline hbody h.1) (ih h.2)

theorem suppressionFree_stripSuppressions (code : Text) :
    SuppressionFree (stripSuppressions code) := by
  apply suppressionFree_of_inkedLines
  intro line hline
  rw [stripSuppressions, ← List.reverse_nil, inkedLines_stripFrom terminated_nil] at hline
  obtain ⟨l, -, rfl⟩ := List.mem_map.mp (List.mem_filter.mp hline).1
  exact suppressionFree_beforeComment l

/-- No suppression comment is left, so stripping again changes nothing. The lines that are not blank
are those of the code, cut where their first comments begin, apart from what is blank then. -/
theorem inkedLines_stripSuppressions (code : Text) :
    (¬ "// @ts-ignore".toList <:+: stripSuppressions code ∧
      ¬ "// @ts-expect-error".toList <:+: stripSuppressions code) ∧
    stripSuppressions (stripSuppressions code) = stripSuppressions code ∧
    inkedLines (stripSuppressions code) =
      ((lines code).map beforeComment).filter fun line ↦ !allBlank line := by
  have hfree := suppressionFree_stripSuppressions code
  exact ⟨suppressionFree_iff.mp hfree, stripFrom_of_free hfree [],
    inkedLines_stripFrom terminated_nil code⟩

/-- Two comments in a row, line breaks of two characters, and a comment behind code. -/
example : stripSuppressions
    "a()\r\n\r\n// @ts-ignore\r\n// @ts-expect-error\r\nb() // @ts-ignore\r\n".toList =
      "a()\r\nb() \n".toList := by
  decide

end FencedCode
