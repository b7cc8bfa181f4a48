import FencedCode.Proofs.Source.Placeholder

/-!
# Filling and clearing

Filling puts the placeholder in front of each empty row, so that no empty row is left, and changes
nothing else. Since the placeholder has no line feed, each row is cleared by itself, whatever stands
in the rows before and behind it. So clearing a filled code gives the code back, unless the code has
placeholders of its own.
-/

namespace FencedCode

open Text

/-! ## Empty rows -/

/-- Nothing stands before the line break of the row. A last row may be a carriage return alone. -/
def IsEmptyRow (row : Text) : Prop := row = ['\n'] ∨ row = ['\r', '\n'] ∨ row = ['\r']

instance (row : Text) : Decidable (IsEmptyRow row) :=
  inferInstanceAs (Decidable (_ ∨ _ ∨ _))

theorem rowBody_eq_nil_iff {row : Text} (h : row ≠ []) : rowBody row = [] ↔ IsEmptyRow row := by
  have hcases : rowBody row = [] ↔ (row = ['\r', '\n'] ∨ row = ['\r']) ∨ row = ['\n'] := by
    rw [rowBody, dropFinal_eq_iff, dropFinal_eq_iff, dropFinal_eq_iff]
    simp [h]
  rw [hcases, or_comm, IsEmptyRow]

theorem fillRow_eq {row : Text} (h : row ≠ []) :
    fillRow row = if IsEmptyRow row then placeholder ++ row else row := by
  simp only [fillRow, List.isEmpty_iff, rowBody_eq_nil_iff h]

theorem fillRow_ne_nil {row : Text} (h : row ≠ []) : fillRow row ≠ [] := by
  unfold fillRow
  split
  · exact List.append_ne_nil_of_right_ne_nil _ h
  · exact h

theorem not_isEmptyRow_fillRow {row : Text} (h : row ≠ []) : ¬ IsEmptyRow (fillRow row) := by
  rw [fillRow_eq h]
  split
  · rename_i hempty
    rcases hempty with rfl | rfl | rfl <;> decide
  · assumption

/-! ## Rows of a filled code -/

/-- The rows of a filled code are the filled rows of the code. -/
theorem rows_fillEmptyLines (code : Text) :
    rows (fillEmptyLines code) = (rows code).map fillRow := by
  induction code using row_induction with
  | nil => rfl
  | last row hne hnot =>
    rw [fillEmptyLines_of_notMem hne hnot, rows_of_notMem hne hnot, List.map_singleton,
      rows_of_notMem (fillRow_ne_nil hne) (notMem_fillRow hnot)]
  | cons body rest hbody ih =>
    rw [fillEmptyLines_body_append hbody, rows_body_append (notMem_fillRow hbody),
      rows_body_append hbody, List.map_cons, fillRow_append_singleton hbody, ih]

theorem not_isEmptyRow_of_mem_rows_fillEmptyLines {code row : Text}
    (h : row ∈ rows (fillEmptyLines code)) : ¬ IsEmptyRow row := by
  rw [rows_fillEmptyLines] at h
  obtain ⟨row, hrow, rfl⟩ := List.mem_map.mp h
  exact not_isEmptyRow_fillRow (ne_nil_of_mem_rows hrow)

theorem fillEmptyLines_of_forall_not_isEmptyRow {code : Text}
    (h : ∀ row ∈ rows code, ¬ IsEmptyRow row) : fillEmptyLines code = code := by
  have hrow : ∀ row ∈ rows code, fillRow row = id row := fun row hrow ↦ by
    rw [fillRow_eq (ne_nil_of_mem_rows hrow), if_neg (h row hrow), id_eq]
  rw [fillEmptyLines, List.flatMap_congr hrow, List.flatMap_id, flatten_rows]

/-! ## Clearing row by row -/

theorem clearPlaceholders_placeholder_append (s : Text) :
    clearPlaceholders (placeholder ++ s) = clearPlaceholders s := by
  rw [clearPlaceholders, clearPlaceholders, replaceAll_nil_eq (by decide),
    replaceAll_nil_eq (by decide), replaceFrom_append (by decide), List.nil_append]

theorem clearPlaceholders_of_not_within {s : Text} (h : ¬ placeholder <:+: s) :
    clearPlaceholders s = s := by
  rw [clearPlaceholders, replaceAll_nil_eq (by decide), replaceFrom_of_not_within h]

theorem clearPlaceholders_append_cons (before after : Text) :
    clearPlaceholders (before ++ '\n' :: after) =
      clearPlaceholders before ++ '\n' :: clearPlaceholders after := by
  simp only [clearPlaceholders, replaceAll_nil_eq (show placeholder ≠ [] by decide)]
  exact replaceFrom_append_cons (by decide) (by decide) [] before after

theorem clearPlaceholders_append {s : Text} (h : Terminated s) (t : Text) :
    clearPlaceholders (s ++ t) = clearPlaceholders s ++ clearPlaceholders t := by
  by_cases hs : s = []
  · rw [hs]
    rfl
  · obtain ⟨front, rfl⟩ := h.exists_append hs
    rw [List.append_assoc, List.singleton_append, clearPlaceholders_append_cons,
      clearPlaceholders_append_cons, List.append_assoc]
    rfl

/-- What is made of the rows is cleared for each row by itself, when line feeds stay at the end. -/
theorem clearPlaceholders_flatMap {f : Text → Text}
    (hf : ∀ body, '\n' ∉ body → Terminated (f (body ++ ['\n']))) (code : Text) :
    clearPlaceholders ((rows code).flatMap f) =
      (rows code).flatMap fun row ↦ clearPlaceholders (f row) := by
  induction code using row_induction with
  | nil => rfl
  | last row hne hnot =>
    rw [rows_of_notMem hne hnot, List.flatMap_singleton, List.flatMap_singleton]
  | cons body rest hbody ih =>
    rw [rows_body_append hbody, List.flatMap_cons, List.flatMap_cons,
      clearPlaceholders_append (hf body hbody), ih]

theorem terminated_fillRow {body : Text} (h : '\n' ∉ body) :
    Terminated (fillRow (body ++ ['\n'])) := by
  rw [fillRow_append_singleton h]
  exact terminated_append_singleton _

theorem clearPlaceholders_fillRow {row : Text} (h : ¬ placeholder <:+: row) :
    clearPlaceholders (fillRow row) = row := by
  unfold fillRow
  split
  · rw [clearPlaceholders_placeholder_append, clearPlaceholders_of_not_within h]
  · exact clearPlaceholders_of_not_within h

theorem clearPlaceholders_fillEmptyLines {code : Text} (h : ¬ placeholder <:+: code) :
    clearPlaceholders (fillEmptyLines code) = code := by
  have hrow : ∀ row ∈ rows code, clearPlaceholders (fillRow row) = id row := fun row hrow ↦ by
    refine clearPlaceholders_fillRow fun hwithin ↦ h ?_
    rw [← flatten_rows code]
    exact hwithin.trans (List.infix_of_mem_flatten hrow)
  rw [fillEmptyLines, clearPlaceholders_flatMap fun body hbody ↦ terminated_fillRow hbody,
    List.flatMap_congr hrow, List.flatMap_id, flatten_rows]

/-- Filling keeps the number of line feeds and changes the empty rows only: each of them gets the
placeholder in front. No empty row is left, and filling again changes nothing. A code that has no
placeholder of its own comes back when it is cleared. -/
theorem rows_fillEmptyLines_and_clear (code : Text) :
    lineFeeds (fillEmptyLines code) = lineFeeds code ∧
      (∀ i : Nat, (rows (fillEmptyLines code))[i]? = (rows code)[i]?.map fun row ↦
        if IsEmptyRow row then placeholder ++ row else row) ∧
      (∀ row ∈ rows (fillEmptyLines code), ¬ IsEmptyRow row) ∧
      fillEmptyLines (fillEmptyLines code) = fillEmptyLines code ∧
      (¬ placeholder <:+: code → clearPlaceholders (fillEmptyLines code) = code) := by
  have hnone : ∀ row ∈ rows (fillEmptyLines code), ¬ IsEmptyRow row := fun row ↦
    not_isEmptyRow_of_mem_rows_fillEmptyLines
  refine ⟨lineFeeds_fillEmptyLines code, fun i ↦ ?_, hnone,
    fillEmptyLines_of_forall_not_isEmptyRow hnone, clearPlaceholders_fillEmptyLines⟩
  rw [rows_fillEmptyLines, List.getElem?_map]
  cases hrow : (rows code)[i]? with
  | none => rfl
  | some row => exact congrArg some (fillRow_eq (ne_nil_of_mem_rows (List.mem_of_getElem? hrow)))

theorem rows_fillEmptyLines_and_clear_sample :
    ¬ placeholder <:+: "a\r\n\r\n\n b\n\r".toList ∧
      fillEmptyLines "a\r\n\r\n\n b\n\r".toList =
        "a\r\n//__NEWLINE__\r\n//__NEWLINE__\n b\n//__NEWLINE__\r".toList ∧
      clearPlaceholders (fillEmptyLines "a\r\n\r\n\n b\n\r".toList) =
        "a\r\n\r\n\n b\n\r".toList := by
  have hfree : ¬ placeholder <:+: "a\r\n\r\n\n b\n\r".toList := by decide
  exact ⟨hfree, by decide, (rows_fillEmptyLines_and_clear _).2.2.2.2 hfree⟩

end FencedCode
