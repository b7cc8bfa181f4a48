import FencedCode.Text.Search
import Mathlib.Data.List.Infix

/-!
# Taking a pattern out of a text

A text is cut at the occurrences of a pattern into pieces that do not hold it. What remains when the
pattern is taken out are these pieces, one after another. For a pattern that does not end as it
begins, there is only one such cut, so occurrences cannot be counted in two ways.
-/

namespace FencedCode.Text

/-- What is left of a text when the pattern is taken out wherever it occurs. -/
inductive Removed (pattern : Text) : Text → Text → Prop
  | last {piece : Text} (hpiece : ¬ pattern <:+: piece) : Removed pattern piece piece
  | occurrence {piece s kept : Text} (hpiece : ¬ pattern <:+: piece)
      (hrest : Removed pattern s kept) : Removed pattern (piece ++ (pattern ++ s)) (piece ++ kept)

variable {pattern : Text}

/-- A character that begins no occurrence stays in front of what is left. -/
theorem Removed.cons {c : Char} {s kept : Text} (h : Removed pattern s kept)
    (hstart : ¬ pattern <+: c :: s) : Removed pattern (c :: s) (c :: kept) := by
  cases h with
  | last hpiece =>
    apply Removed.last
    rw [List.infix_cons_iff, not_or]
    exact ⟨hstart, hpiece⟩
  | @occurrence piece _ kept hpiece hrest =>
    have hlonger : ¬ pattern <:+: c :: piece := by
      rw [List.infix_cons_iff, not_or]
      refine ⟨fun hprefix ↦ hstart ?_, hpiece⟩
      exact hprefix.trans (List.prefix_append (c :: piece) _)
    exact Removed.occurrence hlonger hrest

theorem replaceFrom_eq_drop (replacement : Text) (skip : Nat) (s : Text) :
    replaceFrom pattern replacement skip s =
      replaceFrom pattern replacement 0 (s.drop skip) := by
  induction s generalizing skip with
  | nil => cases skip <;> rfl
  | cons c s ih =>
    cases skip with
    | zero => rfl
    | succ skip => rw [replaceFrom, ih, List.drop_succ_cons]

theorem replaceFrom_append (hpattern : pattern ≠ []) (replacement s : Text) :
    replaceFrom pattern replacement 0 (pattern ++ s) =
      replacement ++ replaceFrom pattern replacement 0 s := by
  obtain ⟨p, rest, rfl⟩ := List.exists_cons_of_ne_nil hpattern
  have hstart : List.isPrefixOf (p :: rest) (p :: (rest ++ s)) = true := by
    rw [List.isPrefixOf_iff_prefix]
    exact List.prefix_append (p :: rest) s
  rw [List.cons_append, replaceFrom, if_pos hstart, replaceFrom_eq_drop, List.length_cons,
    Nat.add_sub_cancel, List.drop_left]

theorem replaceFrom_cons_of_not_start {c : Char} {s : Text} (h : ¬ pattern <+: c :: s)
    (replacement : Text) : replaceFrom pattern replacement 0 (c :: s) =
      c :: replaceFrom pattern replacement 0 s := by
  rw [← List.isPrefixOf_iff_prefix] at h
  rw [replaceFrom, if_neg h]

theorem replaceAll_nil_eq (hpattern : pattern ≠ []) (s : Text) :
    replaceAll pattern [] s = replaceFrom pattern [] 0 s := by
  rw [replaceAll, if_neg (by simpa using hpattern)]

theorem replaceFrom_nil_sublist (skip : Nat) (s : Text) :
    (replaceFrom pattern [] skip s).Sublist s := by
  induction s generalizing skip with
  | nil => cases skip <;> exact List.Sublist.refl []
  | cons c s ih =>
    cases skip with
    | zero =>
      rw [replaceFrom]
      split
      · exact (ih _).cons c
      · exact (ih 0).cons_cons c
    | succ skip => exact (ih skip).cons c

/-- Behind an occurrence less is left. -/
theorem length_lt_append (hpattern : pattern ≠ []) (rest : Text) :
    rest.length < (pattern ++ rest).length := by
  have hpos := List.length_pos_iff.mpr hpattern
  rw [List.length_append]
  omega

theorem removed_replaceAll (hpattern : pattern ≠ []) (s : Text) :
    Removed pattern s (replaceAll pattern [] s) := by
  rw [replaceAll_nil_eq hpattern]
  -- An occurrence is skipped as a whole, so the induction is on the length of the text.
  induction hlength : s.length using Nat.strong_induction_on generalizing s with
  | _ length ih =>
    subst hlength
    by_cases hstart : pattern <+: s
    · obtain ⟨rest, rfl⟩ := hstart
      have hnil : ¬ pattern <:+: [] := by simpa using hpattern
      have hrest := Removed.occurrence hnil (ih _ (length_lt_append hpattern rest) rest rfl)
      rwa [← replaceFrom_append hpattern] at hrest
    · cases s with
      | nil => exact .last (by simpa using hpattern)
      | cons c s =>
        rw [replaceFrom_cons_of_not_start hstart]
        exact (ih _ (Nat.lt_succ_self _) s rfl).cons hstart

/-- No beginning of the pattern is also its end, apart from nothing and the whole. -/
def Unbordered (pattern : Text) : Prop :=
  ∀ border ∈ pattern.inits, border <:+ pattern → border = [] ∨ border = pattern

instance (pattern : Text) : Decidable (Unbordered pattern) :=
  inferInstanceAs (Decidable (∀ border ∈ pattern.inits, _))

/-- An occurrence does not begin in a piece and end behind it. -/
theorem Unbordered.not_start_append (h : Unbordered pattern) {piece : Text} (hne : piece ≠ [])
    (hpiece : ¬ pattern <:+: piece) (s : Text) : ¬ pattern <+: piece ++ (pattern ++ s) := by
  intro hprefix
  rcases List.prefix_or_prefix_of_prefix hprefix (List.prefix_append piece _) with hin | hover
  · exact hpiece hin.isInfix
  · obtain ⟨border, rfl⟩ := hover
    rw [List.prefix_append_right_inj] at hprefix
    have hstart : border <+: piece ++ border := by
      apply List.prefix_of_prefix_length_le hprefix (List.prefix_append _ s)
      rw [List.length_append]
      exact Nat.le_add_left _ _
    rcases h border ((List.mem_inits _ _).mpr hstart) (List.suffix_append _ _) with rfl | hwhole
    · rw [List.append_nil] at hpiece
      exact hpiece (List.infix_refl piece)
    · exact hne (List.self_eq_append_left.mp hwhole)

theorem replaceFrom_append_occurrence (h : Unbordered pattern) (hpattern : pattern ≠ [])
    {piece : Text} (hpiece : ¬ pattern <:+: piece) (s : Text) :
    replaceFrom pattern [] 0 (piece ++ (pattern ++ s)) =
      piece ++ replaceFrom pattern [] 0 s := by
  induction piece with
  | nil => exact replaceFrom_append hpattern [] s
  | cons c piece ih =>
    have hstart := h.not_start_append (List.cons_ne_nil c piece) hpiece s
    rw [List.infix_cons_iff, not_or] at hpiece
    calc
      _ = c :: replaceFrom pattern [] 0 (piece ++ (pattern ++ s)) :=
        replaceFrom_cons_of_not_start hstart []
      _ = c :: (piece ++ replaceFrom pattern [] 0 s) := by rw [ih hpiece.2]

theorem replaceFrom_of_not_within {s : Text} (h : ¬ pattern <:+: s) (replacement : Text) :
    replaceFrom pattern replacement 0 s = s := by
  induction s with
  | nil => rfl
  | cons c s ih =>
    rw [List.infix_cons_iff, not_or] at h
    rw [replaceFrom_cons_of_not_start h.1, ih h.2]

/-- An occurrence does not reach over a character that the pattern does not have. -/
theorem prefix_of_prefix_append_cons {c : Char} (hc : c ∉ pattern) {before after : Text}
    (h : pattern <+: before ++ c :: after) : pattern <+: before := by
  rcases List.prefix_or_prefix_of_prefix h (List.prefix_append before _) with hin | hover
  · exact hin
  · obtain ⟨rest, rfl⟩ := hover
    rw [List.prefix_append_right_inj] at h
    cases rest with
    | nil => rw [List.append_nil]
    | cons d rest =>
      obtain ⟨rfl, -⟩ := List.cons_prefix_cons.mp h
      exact absurd (List.mem_append_right _ List.mem_cons_self) hc

/-- What stands on the two sides of a character that the pattern does not have is replaced apart. -/
theorem replaceFrom_append_cons {c : Char} (hc : c ∉ pattern) (hpattern : pattern ≠ [])
    (replacement before after : Text) :
    replaceFrom pattern replacement 0 (before ++ c :: after) =
      replaceFrom pattern replacement 0 before ++
        c :: replaceFrom pattern replacement 0 after := by
  induction hlength : before.length using Nat.strong_induction_on generalizing before with
  | _ length ih =>
    subst hlength
    by_cases hstart : pattern <+: before
    · obtain ⟨rest, rfl⟩ := hstart
      rw [List.append_assoc, replaceFrom_append hpattern, replaceFrom_append hpattern,
        ih _ (length_lt_append hpattern rest) rest rfl, List.append_assoc]
    · have hnot : ¬ pattern <+: before ++ c :: after :=
        mt (prefix_of_prefix_append_cons hc) hstart
      cases before with
      | nil => exact replaceFrom_cons_of_not_start hnot replacement
      | cons d before =>
        rw [List.cons_append] at hnot ⊢
        rw [replaceFrom_cons_of_not_start hnot, replaceFrom_cons_of_not_start hstart,
          ih _ (Nat.lt_succ_self _) before rfl, List.cons_append]

/-- For an unbordered pattern there is only one way to take it out. -/
theorem removed_iff (h : Unbordered pattern) (hpattern : pattern ≠ []) {s kept : Text} :
    Removed pattern s kept ↔ kept = replaceAll pattern [] s := by
  constructor
  · intro hremoved
    rw [replaceAll_nil_eq hpattern]
    induction hremoved with
    | last hpiece => rw [replaceFrom_of_not_within hpiece]
    | occurrence hpiece _ ih => rw [replaceFrom_append_occurrence h hpattern hpiece, ih]
  · rintro rfl
    exact removed_replaceAll hpattern s

end FencedCode.Text
