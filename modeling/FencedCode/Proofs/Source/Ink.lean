import FencedCode.Proofs.Source.Listing
import Mathlib.Algebra.Order.BigOperators.Group.List
import Mathlib.Algebra.Order.Ring.Nat

/-!
# Ink outside of directive lines

The ink of a text is what is not white space. The ink of the files of a block stands outside of the
directive lines of the block, and a code that has a directive line has less ink outside of it than
in all.
-/

namespace FencedCode

open Text

/-- The ink on those rows that are no directive lines. -/
def plainInk (rows : List Text) : Nat :=
  (rows.map fun row ↦ if (Directive.parse? (rowBody row)).isSome then 0 else ink row).sum

theorem plainInk_append (rows others : List Text) :
    plainInk (rows ++ others) = plainInk rows + plainInk others := by
  simp [plainInk]

theorem plainInk_cons_of_onRow {d : Directive} {row : Text} (h : d.OnRow row) (rows : List Text) :
    plainInk (row :: rows) = plainInk rows := by
  simp [plainInk, Directive.onRow_iff.mp h]

theorem plainInk_cons_of_not_onRow {row : Text} (h : ∀ d : Directive, ¬ d.OnRow row)
    (rows : List Text) : plainInk (row :: rows) = ink row + plainInk rows := by
  simp [plainInk, Directive.forall_not_onRow_iff.mp h]

theorem plainInk_le (rows : List Text) : plainInk rows ≤ ink rows.flatten := by
  induction rows with
  | nil => simp [plainInk]
  | cons row rows ih =>
    rw [List.flatten_cons, ink_append]
    by_cases hrow : ∃ d : Directive, d.OnRow row
    · obtain ⟨d, hd⟩ := hrow
      rw [plainInk_cons_of_onRow hd]
      omega
    · rw [plainInk_cons_of_not_onRow (not_exists.mp hrow)]
      omega

theorem plainInk_of_not_onRow {rows : List Text}
    (h : ∀ row ∈ rows, ∀ d : Directive, ¬ d.OnRow row) : plainInk rows = ink rows.flatten := by
  induction rows with
  | nil => rfl
  | cons row rows ih =>
    rw [plainInk_cons_of_not_onRow (h row List.mem_cons_self), List.flatten_cons, ink_append,
      ih fun r hr ↦ h r (List.mem_cons_of_mem row hr)]

theorem ink_pos_of_onRow {d : Directive} {row : Text} (h : d.OnRow row) : 0 < ink row := by
  obtain ⟨tail, htail⟩ := h
  have hslash : '/' ∈ rowBody row := by
    rw [htail.line_eq]
    exact List.mem_append_left _ (by decide)
  exact ink_pos (mem_of_mem_rowBody hslash) (by decide)

theorem plainInk_rows_of_directiveFree {s : Text} (h : DirectiveFree s) :
    plainInk (rows s) = ink s := by
  rw [plainInk_of_not_onRow h, flatten_rows]

/-- A directive line takes its ink away. -/
theorem plainInk_rows_lt {s : Text} (h : ¬ DirectiveFree s) : plainInk (rows s) < ink s := by
  have hrow : ∃ row ∈ rows s, ∃ d : Directive, d.OnRow row := by
    simpa [DirectiveFree] using h
  obtain ⟨row, hmem, d, hd⟩ := hrow
  obtain ⟨before, after, hsplit⟩ := List.append_of_mem hmem
  have hpos := ink_pos_of_onRow hd
  have hbefore := plainInk_le before
  have hafter := plainInk_le after
  calc
    plainInk (rows s) = plainInk before + plainInk after := by
      rw [hsplit, plainInk_append, plainInk_cons_of_onRow hd]
    _ < ink before.flatten + (ink row + ink after.flatten) := by omega
    _ = ink s := by
      rw [← ink_append, ← ink_append, ← List.flatten_cons, ← List.flatten_append, ← hsplit,
        flatten_rows]

theorem plainInk_sections {sections : List BlockSection}
    (hheaders : ∀ part ∈ sections, part.directive.OnRow part.header)
    (hbodies : ∀ part ∈ sections, DirectiveFree part.body) :
    plainInk (sections.flatMap fun part ↦ part.header :: rows part.body) =
      (sections.map fun part ↦ ink part.body).sum := by
  induction sections with
  | nil => rfl
  | cons part sections ih =>
    have hrest := ih (fun p hp ↦ hheaders p (List.mem_cons_of_mem part hp))
      (fun p hp ↦ hbodies p (List.mem_cons_of_mem part hp))
    rw [List.flatMap_cons, plainInk_append, hrest,
      plainInk_cons_of_onRow (hheaders part List.mem_cons_self),
      plainInk_rows_of_directiveFree (hbodies part List.mem_cons_self), List.map_cons,
      List.sum_cons]

/-- Codes whose ink stands outside of directive lines have no directive lines. -/
theorem directiveFree_of_sum_ink_le {files : List SourceFile}
    (h : (files.map fun file ↦ ink file.code).sum ≤
      (files.map fun file ↦ plainInk (rows file.code)).sum) :
    ∀ file ∈ files, DirectiveFree file.code := by
  intro file hfile
  by_contra hcode
  apply Nat.not_lt_of_le h
  apply List.sum_lt_sum
  · intro g _
    calc
      plainInk (rows g.code) ≤ ink (rows g.code).flatten := plainInk_le _
      _ = ink g.code := by rw [flatten_rows]
  · exact ⟨file, hfile, plainInk_rows_lt hcode⟩

theorem sum_ink_rereadFiles (files : List SourceFile) :
    ((rereadFiles files).map fun file ↦ ink file.code).sum =
      (files.map fun file ↦ ink file.code).sum := by
  have htrim := map_rereadFiles (fun _ code ↦ ink code) files
  simp only [ink_trim] at htrim
  rw [htrim]

/-- Outside of directive lines a listing has the ink that its codes have. -/
theorem plainInk_rows_stacked {folder : Text} {files : List SourceFile}
    (hnames : ∀ file ∈ files, file.Nameable folder) :
    plainInk (rows (stacked folder files)) =
      ((rereadFiles files).map fun file ↦ plainInk (rows file.code)).sum := by
  have hreread := nameable_of_mem_rereadFiles hnames
  rw [rows_stacked hnames]
  generalize rereadFiles files = others at hreread
  induction others with
  | nil => rfl
  | cons f others ih =>
    have hheader := SourceFile.onRow_headerIn (hreread f List.mem_cons_self)
    rw [List.flatMap_cons, plainInk_append, ih fun g hg ↦ hreread g (List.mem_cons_of_mem f hg),
      plainInk_cons_of_onRow hheader, List.map_cons, List.sum_cons]

theorem sum_map_shownFiles (weight : SourceFile → Nat) (files : List SourceFile) :
    ((shownFiles files).map weight).sum =
      (files.map fun file ↦ if file.hidden then 0 else weight file).sum := by
  induction files with
  | nil => rfl
  | cons file files ih =>
    unfold shownFiles at ih ⊢
    cases hhidden : file.hidden <;> simp [hhidden, ih]

/-- The ink of the shown files of a block stands outside of its directive lines. -/
theorem sum_ink_shownFiles_le (folder default text : Text) :
    ((shownFiles (FileSet.ofBlock folder default text).values).map fun file ↦ ink file.code).sum ≤
      plainInk (rows text) := by
  have hcut := Sections.cuts_ofText text
  generalize Sections.ofText text = s at hcut
  let weight : Text × SourceFile → Nat := fun e ↦ if e.2.hidden then 0 else ink e.2.code
  have hdeclared : ((FileSet.declared folder default s).map weight).sum ≤
      ink s.preamble + (s.sections.map fun part ↦ ink part.body).sum := by
    rw [FileSet.declared, List.map_append, List.sum_append]
    refine Nat.add_le_add ?_ ?_
    · split <;> simp [weight, FileSet.entry]
    · rw [List.map_map]
      refine List.sum_le_sum fun part _ ↦ ?_
      simp only [Function.comp_apply, weight, FileSet.entry]
      split <;> omega
  calc
    _ = ((FileSet.ofBlock folder default text).entries.map weight).sum := by
      rw [sum_map_shownFiles, Table.values, List.map_map]
      rfl
    _ ≤ ((FileSet.declared folder default s).map weight).sum := by
      rw [FileSet.ofBlock_eq, hcut.ofText_eq]
      exact Table.sum_entries_ofList_le weight _
    _ ≤ ink s.preamble + (s.sections.map fun part ↦ ink part.body).sum := hdeclared
    _ = plainInk (rows text) := by
      rw [hcut.rows_eq, plainInk_append, plainInk_sections hcut.headers hcut.bodies_free,
        plainInk_rows_of_directiveFree hcut.preamble_free]

end FencedCode
