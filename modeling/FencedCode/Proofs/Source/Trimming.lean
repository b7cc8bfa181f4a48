import FencedCode.Proofs.Source.Directive

/-!
# Trimming and directive lines

A text without a directive line may get one when it is trimmed: the white space in front of its
first line may be all that kept the line from being one. No other line is affected, because white
space behind a directive line leaves it a directive line.
-/

namespace FencedCode

open Text

theorem reads_append_blank {d : Directive} {row e : Text}
    (h : ∃ tail, d.Reads (dropFinal '\r' row) tail) (he : allBlank e) :
    ∃ tail, d.Reads (dropFinal '\r' (row ++ e)) tail := by
  obtain ⟨tail, htail⟩ := h
  obtain ⟨b, hb, heq⟩ := exists_dropFinal_append (c := '\r') (by decide) he row
  rw [heq]
  exact ⟨tail ++ b, htail.append_blank hb⟩

/-- A directive line at the end of a text stays one when white space is added. -/
theorem exists_onRow_append_blank {d : Directive} {row e : Text} (hne : row ≠ [])
    (hnot : '\n' ∉ row) (he : allBlank e) (h : d.OnRow row) :
    ∃ r ∈ rows (row ++ e), d.OnRow r := by
  rw [Directive.OnRow, rowBody_of_notMem hnot] at h
  by_cases hmem : '\n' ∈ e
  · obtain ⟨body, rest, rfl, hbody⟩ := List.eq_append_cons_of_mem hmem
    rw [allBlank, List.all_append, Bool.and_eq_true] at he
    have hrow : '\n' ∉ row ++ body := by simp [hnot, hbody]
    refine ⟨(row ++ body) ++ ['\n'], ?_, ?_⟩
    · rw [← List.append_assoc, rows_body_append hrow]
      exact List.mem_cons_self
    · rw [Directive.OnRow, rowBody_append_singleton]
      exact reads_append_blank h he.1
  · have hrow : '\n' ∉ row ++ e := by simp [hnot, hmem]
    refine ⟨row ++ e, ?_, ?_⟩
    · rw [rows_of_notMem (by simp [hne]) hrow]
      exact List.mem_singleton_self _
    · rw [Directive.OnRow, rowBody_of_notMem hrow]
      exact reads_append_blank h he

theorem directiveFree_of_notMem {s : Text} (hne : s ≠ []) (hnot : '\n' ∉ s) :
    DirectiveFree s ↔ ∀ d : Directive, ¬ d.OnRow s := by
  rw [DirectiveFree, rows_of_notMem hne hnot]
  simp

theorem directiveFree_append {s : Text} (hs : Terminated s) (t : Text) :
    DirectiveFree (s ++ t) ↔ DirectiveFree s ∧ DirectiveFree t := by
  simp only [DirectiveFree, rows_append hs, List.forall_mem_append]

/-- White space taken away at the end of a text gives it no directive line. -/
theorem directiveFree_of_append_blank {s e : Text} (he : allBlank e)
    (h : DirectiveFree (s ++ e)) : DirectiveFree s := by
  induction s using row_induction with
  | nil => exact directiveFree_nil
  | last row hne hnot =>
    rw [directiveFree_of_notMem hne hnot]
    intro d hd
    obtain ⟨r, hr, hdr⟩ := exists_onRow_append_blank hne hnot he hd
    exact h r hr d hdr
  | cons body rest hbody ih =>
    have hsplit (t : Text) : body ++ '\n' :: t = (body ++ ['\n']) ++ t := by simp
    have hend := terminated_append_singleton body
    rw [List.append_assoc, List.cons_append, hsplit, directiveFree_append hend] at h
    rw [hsplit, directiveFree_append hend]
    exact ⟨h.1, ih h.2⟩

/-- The only directive line that trimming can bring about is the first line. -/
theorem exists_onRow_head_of_trim {s : Text} (h : DirectiveFree s)
    (htrim : ¬ DirectiveFree (trim s)) :
    ∃ d : Directive, ∃ row rest, rows (trim s) = row :: rest ∧ d.OnRow row := by
  obtain ⟨b, e, -, he, hs⟩ := exists_trim s
  generalize trim s = t at htrim hs
  cases t using row_cases with
  | nil => exact absurd directiveFree_nil htrim
  | last _ hne hnot =>
    rw [directiveFree_of_notMem hne hnot, ← not_exists, Classical.not_not] at htrim
    obtain ⟨d, hd⟩ := htrim
    exact ⟨d, t, [], rows_of_notMem hne hnot, hd⟩
  | cons body rest hbody =>
    have hend := terminated_append_singleton (b ++ body)
    have hsplit : s = (b ++ body ++ ['\n']) ++ (rest ++ e) := by
      rw [hs]
      simp
    have hrest : DirectiveFree rest := by
      rw [hsplit, directiveFree_append hend] at h
      exact directiveFree_of_append_blank he h.2
    by_cases hfirst : ∃ d : Directive, d.OnRow (body ++ ['\n'])
    · obtain ⟨d, hd⟩ := hfirst
      exact ⟨d, _, _, rows_body_append hbody rest, hd⟩
    · apply absurd _ htrim
      unfold DirectiveFree
      rw [rows_body_append hbody]
      exact List.forall_mem_cons.mpr ⟨not_exists.mp hfirst, hrest⟩

end FencedCode
