import FencedCode.Proofs.Source.Section

/-!
# Where files begin

A file of a block is the preamble, or the body of the last section of its name. In both cases its
code is a part of the text of the block, and the line at which it begins is the number of line feeds
in front of it. So a line of the code is a line of the text, further down by that number, and behind
that many lines the text goes on with the code. Only a directive row that ends the text without a
line feed is not among the lines in front of its file, which is empty.
-/

namespace FencedCode

open Text

namespace Sections

/-- The file is read from the text behind a beginning of the text: it is the preamble, or the body
of the last section of its name. -/
inductive FileBehind (s : Sections) (folder default : Text) : Text → SourceFile → Prop
  | preamble (hfile : s.hasPreambleFile)
      (hlast : ∀ part ∈ s.sections,
        blockPath folder part.directive.name ≠ blockPath folder default) :
      FileBehind s folder default [] ⟨blockPath folder default, s.preamble, false⟩
  | body (front : List BlockSection) (part : BlockSection) (rest : List BlockSection)
      (hsections : s.sections = front ++ part :: rest)
      (hlast : ∀ other ∈ rest,
        blockPath folder other.directive.name ≠ blockPath folder part.directive.name) :
      FileBehind s folder default
        (s.preamble ++ (front.flatMap fun p ↦ p.header ++ p.body) ++ part.header)
        ⟨blockPath folder part.directive.name, part.body, part.directive.hidden⟩

variable {s : Sections} {folder default text before : Text} {file : SourceFile}

/-- The rows in front of a section and behind its directive row. -/
theorem Cuts.exists_rows_eq {front rest : List BlockSection} {part : BlockSection}
    (hcut : s.Cuts text) (hsections : s.sections = front ++ part :: rest) :
    ∃ rowsBefore, rowsBefore.flatten = s.preamble ++ (front.flatMap fun p ↦ p.header ++ p.body) ∧
      rows text = rowsBefore ++ part.header ::
        (rows part.body ++ rest.flatMap fun p ↦ p.header :: rows p.body) := by
  refine ⟨rows s.preamble ++ front.flatMap fun p ↦ p.header :: rows p.body, ?_, ?_⟩
  · rw [List.flatten_append, flatten_rows, flatten_rows_sections]
  · rw [hcut.rows_eq, hsections, List.flatMap_append, List.flatMap_cons, List.append_assoc,
      List.cons_append]

/-- The text goes on with the code, and whatever the code stands between ends its rows. -/
theorem FileBehind.exists_after (hcut : s.Cuts text) (h : s.FileBehind folder default before file) :
    ∃ after, text = before ++ (file.code ++ after) ∧
      (file.code ≠ [] → Terminated before) ∧ (after ≠ [] → Terminated file.code) := by
  cases h with
  | preamble _ _ =>
    have hrows := hcut.rows_eq
    rw [← List.nil_append (rows s.preamble ++ _)] at hrows
    exact ⟨_, cut_of_rows_eq hrows⟩
  | body front part rest hsections _ =>
    obtain ⟨rowsBefore, hflatten, hrows⟩ := hcut.exists_rows_eq hsections
    rw [List.append_cons] at hrows
    have hpieces := cut_of_rows_eq hrows
    rw [List.flatten_append, List.flatten_singleton, hflatten] at hpieces
    exact ⟨_, hpieces⟩

/-- The text ends with the directive row of the file at the path, which has no line feed. -/
def EndsWithRow (s : Sections) (folder path row : Text) : Prop :=
  ∃ front part, s.sections = front ++ [part] ∧ blockPath folder part.directive.name = path ∧
    part.header = row ∧ '\n' ∉ row ∧ part.body = []

/-- What stands in front of a file ends its rows, unless the text does not go on behind it. -/
theorem FileBehind.terminated_or (hcut : s.Cuts text)
    (h : s.FileBehind folder default before file) :
    Terminated before ∨ ∃ front row, Terminated front ∧ before = front ++ row ∧
      text = front ++ row ∧ file.code = [] ∧ s.EndsWithRow folder file.path row := by
  cases h with
  | preamble _ _ => exact .inl terminated_nil
  | body front part rest hsections _ =>
    obtain ⟨rowsBefore, hflatten, hrows⟩ := hcut.exists_rows_eq hsections
    have hfront := terminated_flatten_of_rows_eq_append hrows (List.cons_ne_nil _ _)
    rw [hflatten] at hfront
    have hheader : part.header ∈ rows text :=
      hrows ▸ List.mem_append_right rowsBefore List.mem_cons_self
    rcases terminated_or_notMem hheader with hterm | hnot
    · exact .inl (hfront.append hterm)
    · have hlast := eq_nil_of_rows_eq_append_cons hrows hnot
      obtain ⟨hbody, hrest⟩ := List.append_eq_nil_iff.mp hlast
      have hbodyNil : part.body = [] := by
        rw [← flatten_rows part.body, hbody, List.flatten_nil]
      have hrestNil : rest = [] := by
        cases rest with
        | nil => rfl
        | cons p rest => exact absurd hrest (by simp)
      have htext := congrArg List.flatten hrows
      rw [hlast, flatten_rows, List.flatten_append, hflatten, List.flatten_singleton] at htext
      rw [hrestNil] at hsections
      exact .inr ⟨_, part.header, hfront, rfl, htext, hbodyNil, front, part, hsections, rfl, rfl,
        hnot, hbodyNil⟩

theorem bodyLines_append (folder : Text) (line : Nat) (front rest : List BlockSection) :
    bodyLines folder line (front ++ rest) = bodyLines folder line front ++
      bodyLines folder (line + lineFeeds (front.flatMap fun p ↦ p.header ++ p.body)) rest := by
  induction front generalizing line with
  | nil => rfl
  | cons part front ih =>
    rw [List.cons_append, bodyLines, bodyLines, ih, List.flatMap_cons, lineFeeds_append,
      lineFeeds_append, List.cons_append]
    simp only [Nat.add_assoc]

theorem map_fst_bodyLines (folder : Text) (line : Nat) (sections : List BlockSection) :
    (bodyLines folder line sections).map Prod.fst =
      sections.map fun part ↦ blockPath folder part.directive.name := by
  induction sections generalizing line with
  | nil => rfl
  | cons part sections ih => rw [bodyLines, List.map_cons, ih, List.map_cons]

theorem notMem_map_fst_bodyLines {path : Text} {sections : List BlockSection}
    (h : ∀ part ∈ sections, blockPath folder part.directive.name ≠ path) (line : Nat) :
    path ∉ (bodyLines folder line sections).map Prod.fst := by
  rw [map_fst_bodyLines, List.mem_map]
  rintro ⟨part, hpart, heq⟩
  exact h part hpart heq

/-- The file begins below the line feeds in front of it. -/
theorem FileBehind.get?_startLines (h : (ofText text).FileBehind folder default before file) :
    (startLines folder default text).get? file.path = some (lineFeeds before) := by
  unfold startLines
  cases h with
  | preamble hfile hlast =>
    simp only [if_pos hfile]
    exact Table.get?_ofList_append_cons (notMem_map_fst_bodyLines hlast _) [] 0
  | body front part rest hsections hlast =>
    simp only [hsections, bodyLines_append, bodyLines]
    rw [← List.append_assoc, lineFeeds_append, lineFeeds_append]
    exact Table.get?_ofList_append_cons (notMem_map_fst_bodyLines hlast _) _ _

end Sections

theorem Sections.exists_fileBehind_of_map_eq {s : Sections} {folder default path : Text}
    {file : SourceFile} {first others : List (Text × SourceFile)}
    (h : (s.sections.map fun part ↦
      FileSet.entry folder part.directive.name part.body part.directive.hidden) =
        first ++ (path, file) :: others) (hlast : path ∉ others.map Prod.fst) :
    ∃ before, s.FileBehind folder default before file ∧ file.path = path := by
  obtain ⟨front, tail, hsections, -, htail⟩ := List.map_eq_append_iff.mp h
  obtain ⟨part, rest, rfl, hpart, hrest⟩ := List.map_eq_cons_iff.mp htail
  obtain ⟨rfl, rfl⟩ := Prod.mk.inj hpart
  refine ⟨_, .body front part rest hsections fun other hother heq ↦ hlast ?_, rfl⟩
  rw [← hrest, List.map_map, ← heq]
  exact List.mem_map_of_mem hother

/-- Every file of a block is read from some place of its text. -/
theorem FileSet.exists_fileBehind {folder default text path : Text} {file : SourceFile}
    (h : (ofBlock folder default text).get? path = some file) :
    ∃ before, (Sections.ofText text).FileBehind folder default before file ∧ file.path = path := by
  rw [ofBlock, ofSections] at h
  generalize Sections.ofText text = s at h
  obtain ⟨first, others, hsplit, hlast⟩ := Table.get?_ofList_eq_some_iff.mp h
  by_cases hfile : s.hasPreambleFile
  · simp only [if_pos hfile, List.singleton_append] at hsplit
    cases first with
    | nil =>
      obtain ⟨hpreamble, hothers⟩ := List.cons.inj hsplit
      obtain ⟨rfl, rfl⟩ := Prod.mk.inj hpreamble
      refine ⟨[], .preamble hfile fun part hpart heq ↦ hlast ?_, rfl⟩
      rw [← hothers, List.map_map, ← heq]
      exact List.mem_map_of_mem hpart
    | cons _ first => exact Sections.exists_fileBehind_of_map_eq (List.cons.inj hsplit).2 hlast
  · simp only [if_neg hfile, List.nil_append] at hsplit
    exact Sections.exists_fileBehind_of_map_eq hsplit hlast

/-- The table of start lines has the keys of the files of a block, in their order. Below its start
line the text goes on with the code of a file: at the beginning of the text, behind the directive
row of the file, or at this row when it ends the text without a line feed and the file is empty. -/
theorem startLines_keys_and_dropLines (folder default text : Text) :
    (startLines folder default text).keys = (FileSet.ofBlock folder default text).keys ∧
    ∀ path file, (FileSet.ofBlock folder default text).get? path = some file →
      ∃ start before, (startLines folder default text).get? path = some start ∧
        start ≤ lineFeeds text ∧ file.code <+: dropLines start text ∧
        (Sections.ofText text).FileBehind folder default before file ∧ file.path = path ∧
        (text = before ++ dropLines start text ∨ file.code = [] ∧
          (Sections.ofText text).EndsWithRow folder path (dropLines start text)) := by
  constructor
  · rw [startLines, FileSet.ofBlock, FileSet.ofSections]
    simp only [Table.keys_ofList, List.map_append, Sections.map_fst_bodyLines, List.map_map]
    congr 2
    split <;> rfl
  · intro path file hfile
    obtain ⟨before, hbehind, rfl⟩ := FileSet.exists_fileBehind hfile
    have hcut := Sections.cuts_ofText text
    obtain ⟨after, htext, -, -⟩ := hbehind.exists_after hcut
    have hstart := hbehind.get?_startLines
    have hle : lineFeeds before ≤ lineFeeds text := by
      rw [htext, lineFeeds_append]
      exact Nat.le_add_right _ _
    refine ⟨lineFeeds before, before, hstart, hle, ?_⟩
    rcases hbehind.terminated_or hcut with hterm | ⟨front, row, hfront, hbefore, hrow, hcode, hlast⟩
    · have hdrop : dropLines (lineFeeds before) text = file.code ++ after := by
        rw [htext, dropLines_append hterm]
      rw [hdrop]
      exact ⟨List.prefix_append _ _, hbehind, rfl, .inl htext⟩
    · have hnot : '\n' ∉ row := by
        obtain ⟨_, _, _, _, _, hnot, _⟩ := hlast
        exact hnot
      have hdrop : dropLines (lineFeeds before) text = row := by
        rw [hbefore, lineFeeds_append, lineFeeds_of_notMem hnot, Nat.add_zero, hrow,
          dropLines_append hfront]
      rw [hdrop, hcode]
      exact ⟨List.nil_prefix, hbehind, rfl, .inr ⟨rfl, hlast⟩⟩

theorem startLines_keys_and_dropLines_twoFiles :
    (FileSet.ofBlock ['d'] ['i'] "// file: a\nx\n// file: b".toList).get? "d/a".toList =
        some ⟨"d/a".toList, "x\n".toList, false⟩ ∧
      ∃ start, (startLines ['d'] ['i'] "// file: a\nx\n// file: b".toList).get? "d/a".toList =
        some start ∧
      "x\n".toList <+: dropLines start "// file: a\nx\n// file: b".toList := by
  have hfile : (FileSet.ofBlock ['d'] ['i'] "// file: a\nx\n// file: b".toList).get?
      "d/a".toList = some ⟨"d/a".toList, "x\n".toList, false⟩ := by decide
  obtain ⟨start, -, hstart, -, hcode, -⟩ :=
    (startLines_keys_and_dropLines ['d'] ['i'] "// file: a\nx\n// file: b".toList).2 _ _ hfile
  exact ⟨hfile, start, hstart, hcode⟩

end FencedCode
