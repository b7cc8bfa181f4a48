import FencedCode.Proofs.Source.Ink
import FencedCode.Proofs.Source.Trimming

/-!
# Normalizing a block twice

A block is normalized by listing its files again. A second pass changes the text exactly when
several files are shown and the trimmed code of one of them has a directive line, which white space
had hidden before.

That a text cannot stay the same in spite of such a line is shown by counting ink. The files of a
text that stays the same have no directive lines in their trimmed codes, since the ink of these
lines would be lost. Every file of the text but the last has a code then, so two directive lines
cannot follow one another. But a directive line that trimming brings about follows the one of its
file.
-/

namespace FencedCode

open Text

/-- The text of a block, listed again from its files. -/
def normalizedBlock (folder text : Text) : Text :=
  listing folder (FileSet.ofBlock folder defaultFileName text).values

/-- The shown files of a block. -/
def shownOfBlock (folder text : Text) : List SourceFile :=
  shownFiles (FileSet.ofBlock folder defaultFileName text).values

theorem nameable_of_mem_shownOfBlock (folder text : Text) :
    ∀ file ∈ shownOfBlock folder text, file.Nameable folder := by
  have hcut := Sections.cuts_ofText text
  intro file hfile
  have hvalue : file ∈ (FileSet.ofBlock folder defaultFileName text).values :=
    List.mem_of_mem_filter hfile
  obtain ⟨e, he, rfl⟩ := List.mem_map.mp hvalue
  refine FileSet.forall_mem_entries_ofBlock (P := fun e ↦ e.2.Nameable folder)
    ⟨defaultFileName, rfl, by decide, List.all_eq_true.mp (by decide)⟩ (fun part hpart ↦ ?_) e he
  obtain ⟨tail, htail⟩ := hcut.headers part hpart
  exact ⟨part.directive.name, rfl, htail.name_ne_nil, htail.name_chars⟩

theorem nodup_path_shownOfBlock (folder text : Text) :
    ((shownOfBlock folder text).map (·.path)).Nodup := by
  have hkeys : ((FileSet.ofBlock folder defaultFileName text).values.map (·.path)).Nodup := by
    rw [FileSet.map_path_values_ofBlock]
    exact (FileSet.ofBlock folder defaultFileName text).nodup_keys
  exact hkeys.sublist (List.filter_sublist.map _)

theorem directiveFree_of_mem_shownOfBlock (folder text : Text) :
    ∀ file ∈ shownOfBlock folder text, DirectiveFree file.code := fun file hfile ↦
  FileSet.directiveFree_of_mem_values_ofBlock file (List.mem_of_mem_filter hfile)

theorem normalizedBlock_of_shownOfBlock (folder text : Text)
    (h : (shownOfBlock folder text).length ≠ 1) :
    normalizedBlock folder text =
      stacked folder (shownOfBlock folder text) :=
  listing_of_length_ne_one h folder

/-- With one shown file or none the normalized text has no directive line. -/
theorem directiveFree_normalizedBlock (folder text : Text)
    (h : (shownOfBlock folder text).length ≤ 1) : DirectiveFree (normalizedBlock folder text) := by
  have hfree := directiveFree_of_mem_shownOfBlock folder text
  by_cases hone : (shownOfBlock folder text).length = 1
  · obtain ⟨only, honly⟩ := List.length_eq_one_iff.mp hone
    rw [normalizedBlock, listing_of_shownFiles_eq_singleton honly]
    exact hfree only (by simp [honly])
  · have hnil : shownOfBlock folder text = [] := List.length_eq_zero_iff.mp (by omega)
    rw [normalizedBlock_of_shownOfBlock folder text hone, hnil]
    exact directiveFree_nil

/-- A text without a directive line is one file, and is shown as it is. -/
theorem normalizedBlock_of_directiveFree {text : Text} (h : DirectiveFree text) (folder : Text) :
    normalizedBlock folder text = text := by
  have hcut : Sections.Cuts ⟨text, []⟩ text := ⟨by simp, by simp, h, by simp⟩
  have hshown : shownOfBlock folder text =
      [⟨blockPath folder defaultFileName, text, false⟩] := by
    rw [shownOfBlock, FileSet.ofBlock_eq, hcut.ofText_eq]
    rfl
  exact listing_of_shownFiles_eq_singleton hshown folder

/-- A listing whose trimmed codes have no directive line is read and listed to itself. -/
theorem normalizedBlock_stacked {folder : Text} {files : List SourceFile}
    (hcount : 2 ≤ files.length) (hnames : ∀ file ∈ files, file.Nameable folder)
    (hpaths : (files.map (·.path)).Nodup)
    (hcodes : ∀ file ∈ files, DirectiveFree (trim file.code)) :
    normalizedBlock folder (stacked folder files) =
      stacked folder files := by
  have hnonempty : files ≠ [] := by
    rintro rfl
    simp at hcount
  have hlength : (rereadFiles files).length = files.length := by
    have hpath := congrArg List.length (map_path_rereadFiles files)
    rwa [List.length_map, List.length_map] at hpath
  have hshown : shownOfBlock folder
      (stacked folder files) = rereadFiles files := by
    rw [shownOfBlock, Table.values,
      entries_ofBlock_stacked hnonempty hnames hpaths hcodes, List.map_map]
    simpa [Function.comp_def] using shownFiles_rereadFiles files
  rw [normalizedBlock_of_shownOfBlock folder _ (by rw [hshown]; omega), hshown,
    stacked_rereadFiles]

/-- When a listing is read to files with the same listing, their trimmed codes have no directive
line: the ink of such a line would be lost on the way. -/
theorem directiveFree_trim_of_sum_ink_le {folder : Text} {files : List SourceFile}
    (hnames : ∀ file ∈ files, file.Nameable folder)
    (hink : (files.map fun file ↦ ink file.code).sum ≤
      plainInk (rows (stacked folder files))) :
    ∀ file ∈ files, DirectiveFree (trim file.code) := by
  have hfree : ∀ f ∈ rereadFiles files, DirectiveFree f.code := by
    apply directiveFree_of_sum_ink_le
    rwa [sum_ink_rereadFiles, ← plainInk_rows_stacked hnames]
  intro file hfile
  obtain ⟨f, hf, hcode⟩ := exists_mem_rereadFiles hfile
  have hf := hfree f hf
  rcases hcode with hcode | hcode
  · rwa [hcode] at hf
  · rw [hcode] at hf
    exact directiveFree_of_append_blank (by decide) hf

/-- In a listing of files whose trimmed codes have no directive line, a directive line does not
follow another one directly. -/
theorem not_adjacent_in_stacked {folder : Text} {files : List SourceFile}
    (hnames : ∀ file ∈ files, file.Nameable folder)
    (hcodes : ∀ file ∈ files, DirectiveFree (trim file.code))
    {before after : List Text} {row next : Text} {d e : Directive}
    (hrows : rows (stacked folder files) =
      before ++ row :: next :: after) (hrow : d.OnRow row) : ¬ e.OnRow next := by
  intro hnext
  have hcut := congrArg Sections.sections (ofText_stacked hnames hcodes)
  obtain ⟨front, hfront⟩ := Sections.exists_sections_ofRows_append before (row :: next :: after)
  rw [Sections.ofText, hrows, hfront, Sections.ofRows_cons, Sections.ofRows_cons,
    Sections.prepend_of_onRow hnext, Sections.prepend_of_onRow hrow] at hcut
  obtain ⟨first, rest, hreread, -, hrest⟩ := List.map_eq_append_iff.mp hcut.symm
  obtain ⟨f, others, rfl, hf, hothers⟩ := List.map_eq_cons_iff.mp hrest
  obtain ⟨g, others, rfl, -, -⟩ := List.map_eq_cons_iff.mp hothers
  exact code_ne_nil_of_rereadFiles_eq_append hreread (congrArg BlockSection.body hf)

/-- A directive line that trimming brings about stands directly behind the one of its file. -/
theorem exists_adjacent_of_not_directiveFree {folder : Text} {files : List SourceFile}
    (hnames : ∀ file ∈ files, file.Nameable folder) {file : SourceFile} (hfile : file ∈ files)
    (hcode : DirectiveFree file.code) (htrim : ¬ DirectiveFree (trim file.code)) :
    ∃ before after row next, ∃ d e : Directive,
      rows (stacked folder files) =
        before ++ row :: next :: after ∧ d.OnRow row ∧ e.OnRow next := by
  obtain ⟨e, first, others, hfirst, he⟩ := exists_onRow_head_of_trim hcode htrim
  obtain ⟨f, hf, hcode⟩ := exists_mem_rereadFiles hfile
  have hnext : ∃ next others, rows f.code = next :: others ∧ e.OnRow next := by
    rcases hcode with hcode | hcode
    · exact ⟨first, others, by rw [hcode, hfirst], he⟩
    · obtain ⟨next, others, hnext, hbody⟩ := exists_rows_append_cons hfirst ['\n', '\n']
      refine ⟨next, others, by rw [hcode, hnext], ?_⟩
      rwa [Directive.onRow_iff, hbody, ← Directive.onRow_iff]
  obtain ⟨next, others, hnext, he⟩ := hnext
  obtain ⟨left, right, hsplit⟩ := List.append_of_mem hf
  refine ⟨left.flatMap fun file ↦ file.headerIn folder :: rows file.code,
    others ++ right.flatMap fun file ↦ file.headerIn folder :: rows file.code,
    f.headerIn folder, next, ⟨f.nameIn folder, false⟩, e, ?_,
    SourceFile.onRow_headerIn (nameable_of_mem_rereadFiles hnames f hf), he⟩
  rw [rows_stacked hnames, hsplit, List.flatMap_append, List.flatMap_cons, hnext]
  simp

theorem not_directiveFree_stacked {folder : Text} {files : List SourceFile} (hnonempty : files ≠ [])
    (hnames : ∀ file ∈ files, file.Nameable folder) :
    ¬ DirectiveFree (stacked folder files) := by
  intro hfree
  obtain ⟨file, hfile⟩ := List.exists_mem_of_ne_nil files hnonempty
  obtain ⟨f, hf, -⟩ := exists_mem_rereadFiles hfile
  have hheader := SourceFile.onRow_headerIn (nameable_of_mem_rereadFiles hnames f hf)
  apply hfree (f.headerIn folder) _ _ hheader
  rw [rows_stacked hnames]
  exact List.mem_flatMap_of_mem hf List.mem_cons_self

/-- When several files are shown and a second pass changes nothing, trimming has not brought about
a directive line in any of them. -/
theorem directiveFree_trim_of_stable {folder text : Text}
    (hcount : 2 ≤ (shownOfBlock folder text).length)
    (hstable : normalizedBlock folder (normalizedBlock folder text) =
      normalizedBlock folder text) :
    ∀ file ∈ shownOfBlock folder text, DirectiveFree (trim file.code) := by
  have hnames := nameable_of_mem_shownOfBlock folder text
  have hfirst := normalizedBlock_of_shownOfBlock folder text (by omega)
  have hnonempty : shownOfBlock folder text ≠ [] := fun hnil ↦ by
    rw [hnil] at hcount
    exact absurd hcount (by decide)
  have hdirective : ¬ DirectiveFree (normalizedBlock folder text) := by
    rw [hfirst]
    exact not_directiveFree_stacked hnonempty hnames
  generalize normalizedBlock folder text = s at hstable hfirst hdirective
  -- With one file or none the second listing would have lost the directive lines.
  have hagain : 2 ≤ (shownOfBlock folder s).length := by
    by_contra hfew
    have hfree := directiveFree_normalizedBlock folder s (by omega)
    rw [hstable] at hfree
    exact hdirective hfree
  have hsecond := normalizedBlock_of_shownOfBlock folder s (by omega)
  rw [hstable] at hsecond
  have hnames' := nameable_of_mem_shownOfBlock folder s
  have hcodes' : ∀ file ∈ shownOfBlock folder s, DirectiveFree (trim file.code) := by
    apply directiveFree_trim_of_sum_ink_le hnames'
    rw [← hsecond]
    exact sum_ink_shownFiles_le folder defaultFileName s
  intro file hfile
  by_contra htrim
  obtain ⟨before, after, row, next, d, e, hrows, hrow, hnext⟩ :=
    exists_adjacent_of_not_directiveFree hnames hfile
      (directiveFree_of_mem_shownOfBlock folder text file hfile) htrim
  rw [← hfirst, hsecond] at hrows
  exact not_adjacent_in_stacked hnames' hcodes' hrows hrow hnext

/-- A block is stable under a second pass exactly when at most one file is shown or no shown code
has a directive line once it is trimmed. -/
theorem normalizedBlock_normalizedBlock_iff (folder text : Text) :
    normalizedBlock folder (normalizedBlock folder text) = normalizedBlock folder text ↔
      (shownOfBlock folder text).length ≤ 1 ∨
        ∀ file ∈ shownOfBlock folder text, DirectiveFree (trim file.code) := by
  have hnames := nameable_of_mem_shownOfBlock folder text
  by_cases hcount : (shownOfBlock folder text).length ≤ 1
  · have hfree := directiveFree_normalizedBlock folder text hcount
    exact iff_of_true (normalizedBlock_of_directiveFree hfree folder) (.inl hcount)
  · constructor
    · intro hstable
      right
      exact directiveFree_trim_of_stable (by omega) hstable
    · intro h
      have hcodes := h.resolve_left hcount
      rw [normalizedBlock_of_shownOfBlock folder text (by omega)]
      exact normalizedBlock_stacked (by omega) hnames (nodup_path_shownOfBlock folder text) hcodes

/-- The indentation of the second line is all that keeps it from being a directive line. -/
theorem normalizedBlock_twice_ne :
    normalizedBlock ['d'] (normalizedBlock ['d']
        "// file: a.ts\n  // file: b.ts\n// file: c.ts\nx".toList) ≠
      normalizedBlock ['d'] "// file: a.ts\n  // file: b.ts\n// file: c.ts\nx".toList := by
  decide

end FencedCode
