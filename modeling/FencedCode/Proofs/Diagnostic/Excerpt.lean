import FencedCode.Diagnostic.Report
import FencedCode.Proofs.Text.Rows
import Mathlib.Data.List.Nodup

/-!
# Rows of an excerpt

An excerpt shows the rows of a source from some lines before a line to some lines behind it, one
below another with their numbers, and marks the row of the line. Its last line is a sum of machine
words. When the sum does not fit one, there is no excerpt, or it ends in front of the line.
-/

namespace FencedCode

open Text

namespace Overflow

theorem add?_of_lt {m n : Nat} (h : m + n < UInt64.size) (overflow : Overflow) :
    overflow.add? m n = some (m + n) := if_pos h

/-- What is left of a sum that does not fit is smaller than its first term. -/
theorem lt_of_add?_eq_some {overflow : Overflow} {m n sum : Nat} (hn : n < UInt64.size)
    (h : UInt64.size ≤ m + n) (hsum : overflow.add? m n = some sum) : sum < m := by
  unfold add? at hsum
  rw [if_neg (Nat.not_lt.mpr h)] at hsum
  cases overflow with
  | fails => exact absurd hsum (by simp)
  | wraps =>
    obtain rfl := Option.some.inj hsum
    have hrest : (m + n) % UInt64.size ≤ m + n - UInt64.size := by
      rw [Nat.mod_eq_sub_mod h]
      exact Nat.mod_le _ _
    omega

end Overflow

namespace Report

/-- A row of an excerpt, as it is without colours. -/
def numberedRow (marked : Bool) (number : Nat) (row : Text) : Text :=
  (if marked then '>' else ' ') :: padStart 4 (ofNat number) ++ " | ".toList ++ row

/-- The lines of a source from the first to the last one, as far as it goes. -/
def linesBetween (source : Text) (first last : Nat) : List Nat :=
  List.range' first (min (last + 1) (rows source).length - first)

/-- The row of an excerpt for a line of its source. -/
def excerptLine (source : Text) (line index : Nat) : Text :=
  numberedRow (index = line) (index + 1) (shownRow ((rows source)[index]?.getD []))

/-- The rows of an excerpt from the first to the last line of its source. -/
def excerptRows (source : Text) (line first last : Nat) : List Text :=
  (linesBetween source first last).map fun index ↦ excerptLine source line index ++ ['\n']

def IsMarked (row : Text) : Prop := row.head? = some '>'

instance : DecidablePred IsMarked := fun row ↦ inferInstanceAs (Decidable (row.head? = some '>'))

variable {source : Text} {line first last index : Nat}

@[simp] theorem mem_linesBetween :
    index ∈ linesBetween source first last ↔
      first ≤ index ∧ index ≤ last ∧ index < (rows source).length := by
  rw [linesBetween, List.mem_range'_1]
  omega

theorem filter_range (first last n : Nat) :
    ((List.range n).filter fun index ↦ first ≤ index ∧ index ≤ last) =
      List.range' first (min (last + 1) n - first) := by
  induction n with
  | zero => simp
  | succ n ih =>
    rw [List.range_succ, List.filter_append, ih]
    by_cases h : first ≤ n ∧ n ≤ last
    · have hbefore : min (last + 1) n - first = n - first := by omega
      have hafter : min (last + 1) (n + 1) - first = n - first + 1 := by omega
      rw [List.filter_singleton, hbefore, hafter, List.range'_1_concat, Nat.add_sub_cancel' h.1]
      simp [h]
    · have hsame : min (last + 1) (n + 1) - first = min (last + 1) n - first := by omega
      rw [List.filter_singleton, hsame]
      simp [h]

theorem notMem_excerptLine (h : index < (rows source).length) :
    '\n' ∉ excerptLine source line index := by
  have hrow := notMem_shownRow (List.getElem_mem h)
  have hnumber := notMem_ofNat (c := '\n') (by decide) (index + 1)
  rw [excerptLine, List.getElem?_eq_getElem h, Option.getD_some]
  simp only [numberedRow, padStart, List.mem_append, List.mem_cons, List.mem_replicate, not_or]
  refine ⟨⟨⟨?_, ?_, hnumber⟩, by decide⟩, hrow⟩
  · split <;> decide
  · rintro ⟨-, h⟩
    exact absurd h (by decide)

theorem isMarked_excerptLine :
    IsMarked (excerptLine source line index ++ ['\n']) ↔ index = line := by
  rw [IsMarked, excerptLine, numberedRow]
  by_cases h : index = line <;> simp [h]

theorem excerpt?_eq {options : ReportOptions} (hplain : options.colored = false)
    (overflow : Overflow) (source : Text) (line : Nat) :
    excerpt? overflow options source line =
      (overflow.add? line options.linesAfter.toNat).map fun last ↦
        (linesBetween source (line - options.linesBefore.toNat) last).flatMap fun index ↦
          excerptLine source line index ++ ['\n'] := by
  have hrows : ((rows source).map shownRow).zipIdx =
      (List.range (rows source).length).map fun index ↦
        (shownRow ((rows source)[index]?.getD []), index) := by
    apply List.ext_getElem
    · simp
    · intro i hi _
      have hlt : i < (rows source).length := by simpa using hi
      simp [hlt]
  have hrow (index : Nat) (row : Text) : excerptRow options line index row =
      numberedRow (index = line) (index + 1) row ++ ['\n'] := by
    simp [excerptRow, paint, hplain, gutter, numberedRow]
  unfold excerpt?
  rw [hrows]
  cases overflow.add? line options.linesAfter.toNat with
  | none => rfl
  | some last =>
    simp only [hrow, List.filter_map, List.flatMap_map, Function.comp_def, filter_range]
    rfl

theorem rows_flatMap_excerptLine (source : Text) (line first last : Nat) :
    rows ((linesBetween source first last).flatMap fun index ↦
      excerptLine source line index ++ ['\n']) = excerptRows source line first last :=
  rows_flatMap _ _ fun _ hindex ↦ notMem_excerptLine (mem_linesBetween.mp hindex).2.2

/-- The row of the line is the only one with a mark. -/
theorem filter_excerptRows (hline : line ∈ linesBetween source first last) :
    (excerptRows source line first last).filter IsMarked =
      [excerptLine source line line ++ ['\n']] := by
  have hcount : (linesBetween source first last).count line = 1 :=
    List.count_eq_one_of_mem List.nodup_range' hline
  have hsingle : (linesBetween source first last).filter (· = line) = [line] := by
    rw [List.filter_eq, hcount, List.replicate_one]
  rw [excerptRows, List.filter_map]
  simp only [Function.comp_def, isMarked_excerptLine, hsingle, List.map_singleton]

theorem filter_excerptRows_of_lt (h : last < line) :
    (excerptRows source line first last).filter IsMarked = [] := by
  have hnone : (linesBetween source first last).filter (· = line) = [] := by
    rw [List.filter_eq_nil_iff]
    simp only [mem_linesBetween, decide_eq_true_eq]
    omega
  rw [excerptRows, List.filter_map]
  simp only [Function.comp_def, isMarked_excerptLine, hnone, List.map_nil]

/-! ## The excerpt -/

variable {options : ReportOptions}

theorem exists_rows_excerpt? (hplain : options.colored = false) (overflow : Overflow)
    (source : Text) (hfits : line + options.linesAfter.toNat < UInt64.size) :
    ∃ shown, excerpt? overflow options source line = some shown ∧
      rows shown = excerptRows source line (line - options.linesBefore.toNat)
        (line + options.linesAfter.toNat) := by
  rw [excerpt?_eq hplain, Overflow.add?_of_lt hfits]
  exact ⟨_, rfl, rows_flatMap_excerptLine source line _ _⟩

/-- The line of an excerpt is shown, with a mark, exactly when the last line of the excerpt fits a
machine word. -/
theorem exists_marked_excerpt?_iff (hplain : options.colored = false) (overflow : Overflow)
    (hline : line < (rows source).length) :
    (∃ shown, excerpt? overflow options source line = some shown ∧
        (rows shown).filter IsMarked = [excerptLine source line line ++ ['\n']]) ↔
      line + options.linesAfter.toNat < UInt64.size := by
  constructor
  · rintro ⟨shown, hshown, hmarked⟩
    by_contra hfits
    rw [excerpt?_eq hplain] at hshown
    obtain ⟨last, hlast, rfl⟩ := Option.map_eq_some_iff.mp hshown
    have hlt := Overflow.lt_of_add?_eq_some options.linesAfter.toNat_lt (Nat.not_lt.mp hfits) hlast
    rw [rows_flatMap_excerptLine, filter_excerptRows_of_lt hlt] at hmarked
    exact absurd hmarked (by simp)
  · intro hfits
    obtain ⟨shown, hshown, hrows⟩ := exists_rows_excerpt? hplain overflow source hfits
    refine ⟨shown, hshown, ?_⟩
    rw [hrows, filter_excerptRows]
    exact mem_linesBetween.mpr ⟨Nat.sub_le _ _, Nat.le_add_right _ _, hline⟩

end Report

end FencedCode
