import FencedCode.Proofs.Text.Removal
import FencedCode.Proofs.Text.Rows
import FencedCode.Source.Placeholder

/-!
# Lines and placeholders

Filling a code changes its empty lines and no others, and it keeps their number. The piece behind
the last line feed is filled only when it holds a carriage return. Clearing takes the placeholders
out and leaves everything else.
-/

namespace FencedCode

open Text

theorem fillRow_of_ne_nil {row : Text} (h : rowBody row ≠ []) : fillRow row = row := by
  rw [fillRow, if_neg]
  exact fun hempty ↦ h (List.isEmpty_iff.mp hempty)

theorem fillRow_append_singleton {body : Text} (h : '\n' ∉ body) :
    fillRow (body ++ ['\n']) = fillRow body ++ ['\n'] := by
  unfold fillRow
  rw [rowBody_append_singleton, rowBody_of_notMem h]
  split
  · rw [List.append_assoc]
  · rfl

theorem notMem_fillRow {row : Text} (h : '\n' ∉ row) : '\n' ∉ fillRow row := by
  unfold fillRow
  split
  · rw [List.mem_append, not_or]
    exact ⟨by decide, h⟩
  · exact h

theorem fillEmptyLines_of_notMem {row : Text} (hne : row ≠ []) (h : '\n' ∉ row) :
    fillEmptyLines row = fillRow row := by
  rw [fillEmptyLines, rows_of_notMem hne h, List.flatMap_singleton]

theorem fillEmptyLines_body_append {body : Text} (h : '\n' ∉ body) (s : Text) :
    fillEmptyLines (body ++ '\n' :: s) = fillRow body ++ '\n' :: fillEmptyLines s := by
  rw [fillEmptyLines, rows_body_append h, List.flatMap_cons, fillRow_append_singleton h,
    List.append_assoc, List.singleton_append, fillEmptyLines]

@[simp] theorem lineFeeds_fillEmptyLines (code : Text) :
    lineFeeds (fillEmptyLines code) = lineFeeds code := by
  induction code using row_induction with
  | nil => rfl
  | last row hne hnot =>
    rw [fillEmptyLines_of_notMem hne hnot, lineFeeds_of_notMem (notMem_fillRow hnot),
      lineFeeds_of_notMem hnot]
  | cons body rest hbody ih =>
    rw [fillEmptyLines_body_append hbody, lineFeeds_body_append (notMem_fillRow hbody),
      lineFeeds_body_append hbody, ih]

/-- Every line is filled in its place, apart from nothing behind the last line feed. -/
theorem getElem?_lines_fillEmptyLines (code : Text) (i : Nat) :
    (lines (fillEmptyLines code))[i]? = (lines code)[i]?.map fun line ↦
      if i = lineFeeds code ∧ line = [] then [] else fillRow line := by
  induction code using row_induction generalizing i with
  | nil => cases i <;> rfl
  | last row hne hnot =>
    rw [fillEmptyLines_of_notMem hne hnot, lines_of_notMem (notMem_fillRow hnot),
      lines_of_notMem hnot]
    cases i with
    | zero => simp [hne]
    | succ i => rfl
  | cons body rest hbody ih =>
    rw [fillEmptyLines_body_append hbody, lines_body_append (notMem_fillRow hbody),
      lines_body_append hbody, lineFeeds_body_append hbody]
    cases i with
    | zero => simp
    | succ i =>
      rw [List.getElem?_cons_succ, List.getElem?_cons_succ, ih i]
      simp only [Nat.add_right_cancel_iff]

/-- A line that is not empty stays in its place. -/
theorem getElem?_lines_fillEmptyLines_of_ne_nil {code row : Text} {i : Nat}
    (h : (lines code)[i]? = some row) (hrow : rowBody row ≠ []) :
    (lines (fillEmptyLines code))[i]? = some row := by
  have hne : row ≠ [] := by
    rintro rfl
    exact hrow rfl
  rw [getElem?_lines_fillEmptyLines, h, Option.map_some, if_neg fun hlast ↦ hne hlast.2,
    fillRow_of_ne_nil hrow]

theorem unbordered_placeholder : Unbordered placeholder := by decide

/-- What is cleared of a text are its placeholders, and nothing else. -/
theorem removed_placeholder_iff {emitted code : Text} :
    Removed placeholder emitted code ↔ code = clearPlaceholders emitted :=
  removed_iff unbordered_placeholder (by decide)

end FencedCode
