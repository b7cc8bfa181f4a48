import FencedCode.Proofs.Source.Directive
import FencedCode.Proofs.Table
import FencedCode.Source.Section

/-!
# The cut of a block at its directive lines

A cut lists the rows of a text as those of a preamble, and then of one body after another behind
its directive row, where neither the preamble nor a body has a directive line of its own. Every
text has exactly one cut, and it is the one that is computed. The files of a block are the pieces
of the cut, where a name that returns replaces the file in its place.
-/

namespace FencedCode

namespace Sections

/-- The rows of the text are those of the pieces, and its directive lines are the headers. -/
structure Cuts (s : Sections) (text : Text) : Prop where
  rows_eq : Text.rows text =
    Text.rows s.preamble ++ s.sections.flatMap fun part ↦ part.header :: Text.rows part.body
  headers : ∀ part ∈ s.sections, part.directive.OnRow part.header
  preamble_free : DirectiveFree s.preamble
  bodies_free : ∀ part ∈ s.sections, DirectiveFree part.body

theorem flatten_rows_sections (sections : List BlockSection) :
    (sections.flatMap fun part ↦ part.header :: Text.rows part.body).flatten =
      sections.flatMap fun part ↦ part.header ++ part.body := by
  induction sections with
  | nil => rfl
  | cons part sections ih =>
    rw [List.flatMap_cons, List.flatten_append, ih, List.flatten_cons, Text.flatten_rows,
      List.flatMap_cons]

theorem ofRows_cons (row : Text) (rows : List Text) :
    ofRows (row :: rows) = prepend row (ofRows rows) := rfl

theorem prepend_of_onRow {d : Directive} {row : Text} (h : d.OnRow row) (s : Sections) :
    prepend row s = ⟨[], ⟨d, row, s.preamble⟩ :: s.sections⟩ := by
  simp only [prepend, Directive.onRow_iff.mp h]

theorem prepend_of_not_onRow {row : Text} (h : ∀ d : Directive, ¬ d.OnRow row) (s : Sections) :
    prepend row s = ⟨row ++ s.preamble, s.sections⟩ := by
  simp only [prepend, Directive.forall_not_onRow_iff.mp h]

/-- Rows that are no directive lines belong to the preamble. -/
theorem ofRows_append_of_not_onRow {rows : List Text}
    (h : ∀ row ∈ rows, ∀ d : Directive, ¬ d.OnRow row) (rest : List Text) :
    ofRows (rows ++ rest) =
      ⟨rows.flatten ++ (ofRows rest).preamble, (ofRows rest).sections⟩ := by
  induction rows with
  | nil => rfl
  | cons row rows ih =>
    have hrow := h row List.mem_cons_self
    have hrows := ih fun r hr ↦ h r (List.mem_cons_of_mem row hr)
    rw [List.cons_append, ofRows_cons, prepend_of_not_onRow hrow, hrows, List.flatten_cons,
      List.append_assoc]

theorem ofRows_sections {sections : List BlockSection}
    (hheaders : ∀ part ∈ sections, part.directive.OnRow part.header)
    (hbodies : ∀ part ∈ sections, DirectiveFree part.body) :
    ofRows (sections.flatMap fun part ↦ part.header :: Text.rows part.body) = ⟨[], sections⟩ := by
  induction sections with
  | nil => rfl
  | cons part sections ih =>
    have hrest := ih (fun p hp ↦ hheaders p (List.mem_cons_of_mem part hp))
      (fun p hp ↦ hbodies p (List.mem_cons_of_mem part hp))
    rw [List.flatMap_cons, List.cons_append, ofRows_cons,
      prepend_of_onRow (hheaders part List.mem_cons_self),
      ofRows_append_of_not_onRow (hbodies part List.mem_cons_self), hrest, Text.flatten_rows,
      List.append_nil]

theorem exists_sections_ofRows_append (rows rest : List Text) :
    ∃ front, (ofRows (rows ++ rest)).sections = front ++ (ofRows rest).sections := by
  induction rows with
  | nil => exact ⟨[], rfl⟩
  | cons row rows ih =>
    obtain ⟨front, hfront⟩ := ih
    rw [List.cons_append, ofRows_cons, prepend]
    split
    · rename_i directive _
      exact ⟨⟨directive, row, (ofRows (rows ++ rest)).preamble⟩ :: front, by
        rw [hfront, List.cons_append]⟩
    · exact ⟨front, hfront⟩

/-- There is no other cut than the computed one. -/
theorem Cuts.ofText_eq {s : Sections} {text : Text} (h : s.Cuts text) : ofText text = s := by
  rw [ofText, h.rows_eq, ofRows_append_of_not_onRow h.preamble_free,
    ofRows_sections h.headers h.bodies_free, Text.flatten_rows, List.append_nil]

/-- A cut with one row more in front, which stays a row before the rest and before the preamble. -/
theorem Cuts.prepend {s : Sections} {row rest : Text} (h : s.Cuts rest)
    (hrest : Text.rows (row ++ rest) = row :: Text.rows rest)
    (hpreamble : Text.rows (row ++ s.preamble) = row :: Text.rows s.preamble) :
    (prepend row s).Cuts (row ++ rest) := by
  by_cases hrow : ∃ d : Directive, d.OnRow row
  · obtain ⟨d, hd⟩ := hrow
    rw [prepend_of_onRow hd]
    refine ⟨?_, ?_, ?_, ?_⟩
    · rw [hrest, h.rows_eq, List.flatMap_cons]
      rfl
    · exact List.forall_mem_cons.mpr ⟨hd, h.headers⟩
    · exact directiveFree_nil
    · exact List.forall_mem_cons.mpr ⟨h.preamble_free, h.bodies_free⟩
  · have hnot := not_exists.mp hrow
    rw [prepend_of_not_onRow hnot]
    refine ⟨?_, h.headers, ?_, h.bodies_free⟩
    · rw [hrest, h.rows_eq, hpreamble, List.cons_append]
    · unfold DirectiveFree
      rw [hpreamble]
      exact List.forall_mem_cons.mpr ⟨hnot, h.preamble_free⟩

/-- The computed pieces cut the text. -/
theorem cuts_ofText (text : Text) : (ofText text).Cuts text := by
  have hnil : Cuts ⟨[], []⟩ [] := ⟨rfl, by simp, directiveFree_nil, by simp⟩
  induction text using Text.row_induction with
  | nil => exact hnil
  | last row hne hnot =>
    have hrows := Text.rows_of_notMem hne hnot
    have hcut : (ofText row).Cuts (row ++ []) := by
      rw [ofText, hrows]
      exact hnil.prepend (by rw [List.append_nil, hrows, Text.rows])
        (by rw [List.append_nil, hrows, Text.rows])
    rwa [List.append_nil] at hcut
  | cons body rest hbody ih =>
    have hrows (s : Text) :
        Text.rows ((body ++ ['\n']) ++ s) = (body ++ ['\n']) :: Text.rows s := by
      rw [List.append_assoc, List.singleton_append, Text.rows_body_append hbody]
    have hcut := ih.prepend (hrows rest) (hrows _)
    rwa [List.append_assoc, List.singleton_append, ofText, ← ofRows_cons,
      ← Text.rows_body_append hbody, ← ofText] at hcut

theorem cuts_iff {s : Sections} {text : Text} : s.Cuts text ↔ s = ofText text := by
  constructor
  · exact fun h ↦ h.ofText_eq.symm
  · rintro rfl
    exact cuts_ofText text

end Sections

namespace FileSet

/-- The files that the pieces of a cut declare, in order, before names that return are merged. -/
def declared (folder default : Text) (s : Sections) : List (Text × SourceFile) :=
  (if s.sections.length = 0 ∨ ¬ Text.allBlank s.preamble then
    [entry folder default s.preamble false] else []) ++
  s.sections.map fun part ↦
    entry folder part.directive.name part.body part.directive.hidden

theorem ofBlock_eq (folder default text : Text) :
    ofBlock folder default text =
      Table.ofList (declared folder default (Sections.ofText text)) := by
  have hpreamble (s : Sections) :
      s.hasPreambleFile ↔ s.sections.length = 0 ∨ ¬ Text.allBlank s.preamble := by
    simp [Sections.hasPreambleFile, List.isEmpty_iff]
  simp only [ofBlock, ofSections, declared, hpreamble]

/-- What holds of every piece that can be a file holds of every file of the block. -/
theorem forall_mem_entries_ofBlock {P : Text × SourceFile → Prop} {folder default text : Text}
    (hpreamble : P (entry folder default (Sections.ofText text).preamble false))
    (hsections : ∀ part ∈ (Sections.ofText text).sections,
      P (entry folder part.directive.name part.body part.directive.hidden)) :
    ∀ e ∈ (ofBlock folder default text).entries, P e := by
  intro e he
  rw [ofBlock_eq] at he
  rcases List.mem_append.mp (Table.mem_of_mem_entries_ofList he) with hfirst | hrest
  · split at hfirst
    · rwa [List.mem_singleton.mp hfirst]
    · exact absurd hfirst List.not_mem_nil
  · obtain ⟨part, hpart, rfl⟩ := List.mem_map.mp hrest
    exact hsections part hpart

theorem path_of_mem_entries_ofBlock {folder default text : Text} :
    ∀ e ∈ (ofBlock folder default text).entries, e.2.path = e.1 :=
  forall_mem_entries_ofBlock rfl fun _ _ ↦ rfl

theorem map_path_values_ofBlock (folder default text : Text) :
    (ofBlock folder default text).values.map (·.path) = (ofBlock folder default text).keys := by
  rw [Table.values, Table.keys, List.map_map]
  exact List.map_congr_left path_of_mem_entries_ofBlock

/-- No file of a block holds a directive line. -/
theorem directiveFree_of_mem_values_ofBlock {folder default text : Text} :
    ∀ file ∈ (ofBlock folder default text).values, DirectiveFree file.code := by
  have hcut := Sections.cuts_ofText text
  intro file hfile
  obtain ⟨e, he, rfl⟩ := List.mem_map.mp hfile
  exact forall_mem_entries_ofBlock (P := fun e ↦ DirectiveFree e.2.code) hcut.preamble_free
    hcut.bodies_free e he

/-- Every text has one cut at its directive lines. The files of the block are the pieces that the
cut declares: each path stands where it is first declared, with the code and the flag that are
declared for it last. -/
theorem ofBlock_cut (folder default text : Text) :
    ∃ s : Sections, (∀ s' : Sections, s'.Cuts text ↔ s' = s) ∧
      text = s.preamble ++ (s.sections.flatMap fun part ↦ part.header ++ part.body) ∧
      (ofBlock folder default text).keys =
        ((declared folder default s).map Prod.fst).eraseDups ∧
      ∀ (path : Text) (file : SourceFile),
        (ofBlock folder default text).get? path = some file ↔
          ∃ before after, declared folder default s = before ++ (path, file) :: after ∧
            path ∉ after.map Prod.fst := by
  refine ⟨Sections.ofText text, fun s' ↦ Sections.cuts_iff, (Sections.text_ofText text).symm, ?_,
    fun path file ↦ ?_⟩
  · rw [ofBlock_eq, Table.keys_ofList]
  · rw [ofBlock_eq, Table.get?_ofList_eq_some_iff]

end FileSet

end FencedCode
