import FencedCode.Proofs.Source.Section
import FencedCode.Source.Listing

/-!
# Reading a listing

A listing of several files is a text whose cut is known: there is one section per file, with the
trimmed code and, except at the end, the gap as its body. This needs that the trimmed codes have
no directive line, since such a line would begin a section of its own. Reading the listing then
gives the shown files back.
-/

namespace FencedCode

/-- The files that a listing shows. -/
def shownFiles (files : List SourceFile) : List SourceFile := files.filter fun file ↦ !file.hidden

/-- Files one below the other, each under its directive line. -/
def stacked (folder : Text) (files : List SourceFile) : Text :=
  listingGap.intercalate (files.map (·.withDirective folder))

/-- Files as they are read again from their listing. -/
def rereadFiles : List SourceFile → List SourceFile
  | [] => []
  | [file] => [⟨file.path, Text.trim file.code, false⟩]
  | file :: next :: rest =>
    ⟨file.path, Text.trim file.code ++ ['\n', '\n', '\n'], false⟩ :: rereadFiles (next :: rest)

namespace SourceFile

/-- The file lies in the folder under a name that a directive line can say. -/
def Nameable (folder : Text) (file : SourceFile) : Prop :=
  ∃ name, file.path = blockPath folder name ∧ name ≠ [] ∧ ∀ c ∈ name, Directive.isNameChar c

theorem nameIn_of_path {folder name : Text} {file : SourceFile}
    (h : file.path = blockPath folder name) : file.nameIn folder = name := by
  have hstrip : Text.stripStart? (folder ++ ['/']) file.path = some name := by
    rw [Text.stripStart?_eq_some_iff, h]
    simp [blockPath]
  rw [nameIn, hstrip, Option.getD_some]

namespace Nameable

variable {folder : Text} {file : SourceFile}

theorem path_eq (h : file.Nameable folder) :
    file.path = blockPath folder (file.nameIn folder) := by
  obtain ⟨name, hpath, -, -⟩ := h
  rw [nameIn_of_path hpath, hpath]

theorem nameIn_ne_nil (h : file.Nameable folder) : file.nameIn folder ≠ [] := by
  obtain ⟨name, hpath, hne, -⟩ := h
  rwa [nameIn_of_path hpath]

theorem nameIn_chars (h : file.Nameable folder) :
    ∀ c ∈ file.nameIn folder, Directive.isNameChar c := by
  obtain ⟨name, hpath, -, hchars⟩ := h
  rwa [nameIn_of_path hpath]

end Nameable

instance (folder : Text) (file : SourceFile) : Decidable (file.Nameable folder) :=
  decidable_of_iff (file.path = blockPath folder (file.nameIn folder) ∧
    file.nameIn folder ≠ [] ∧ (file.nameIn folder).all Directive.isNameChar) <| by
      rw [List.all_eq_true]
      constructor
      · rintro ⟨hpath, hname⟩
        exact ⟨_, hpath, hname⟩
      · exact fun h ↦ ⟨h.path_eq, h.nameIn_ne_nil, h.nameIn_chars⟩

/-- The directive row of a file in a listing. -/
def headerIn (folder : Text) (file : SourceFile) : Text :=
  Directive.marker ++ file.nameIn folder ++ ['\n']

/-- A file as a section of a block. -/
def sectionIn (folder : Text) (file : SourceFile) : BlockSection :=
  ⟨⟨file.nameIn folder, false⟩, file.headerIn folder, file.code⟩

theorem withDirective_eq (folder : Text) (file : SourceFile) :
    file.withDirective folder = file.headerIn folder ++ Text.trim file.code := by
  simp [withDirective, headerIn]

theorem notMem_marker_nameIn {folder : Text} {file : SourceFile} (h : file.Nameable folder)
    {c : Char} (hmarker : c ∉ Directive.marker) (hname : ¬ Directive.isNameChar c) :
    c ∉ Directive.marker ++ file.nameIn folder := by
  rw [List.mem_append, not_or]
  exact ⟨hmarker, fun hmem ↦ hname (h.nameIn_chars c hmem)⟩

theorem rows_headerIn_append {folder : Text} {file : SourceFile} (h : file.Nameable folder)
    (s : Text) : Text.rows (file.headerIn folder ++ s) = file.headerIn folder :: Text.rows s := by
  rw [headerIn, List.append_assoc, List.singleton_append, Text.rows_body_append]
  exact notMem_marker_nameIn h (by decide) (by decide)

theorem onRow_headerIn {folder : Text} {file : SourceFile} (h : file.Nameable folder) :
    (⟨file.nameIn folder, false⟩ : Directive).OnRow (file.headerIn folder) := by
  refine ⟨[], ?_, h.nameIn_ne_nil, h.nameIn_chars, by simp, .inl rfl, by simp [Text.words]⟩
  rw [headerIn, Text.rowBody_append_singleton, Text.dropFinal_of_notMem, List.append_nil]
  exact notMem_marker_nameIn h (by decide) (by decide)

end SourceFile

theorem directiveFree_append_gap {s : Text} (h : DirectiveFree s) :
    DirectiveFree (s ++ ['\n', '\n', '\n']) := by
  have hempty (d : Directive) : ¬ d.OnRow ['\n'] := by
    rw [Directive.onRow_iff]
    simp [show Directive.parse? (Text.rowBody ['\n']) = none by decide]
  intro row hrow d
  rcases Text.mem_rows_append_cons hrow with rfl | ⟨r, hr, hbody⟩ | hgap
  · exact hempty d
  · rw [Directive.onRow_iff, ← hbody, ← Directive.onRow_iff]
    exact h r hr d
  · have hrows : Text.rows ['\n', '\n'] = [['\n'], ['\n']] := by decide
    rw [hrows] at hgap
    obtain rfl : row = ['\n'] := by simpa using hgap
    exact hempty d

theorem path_of_mem_rereadFiles {files : List SourceFile} {file : SourceFile}
    (h : file ∈ rereadFiles files) : ∃ f ∈ files, file.path = f.path := by
  induction files using rereadFiles.induct with
  | case1 => simp [rereadFiles] at h
  | case2 f =>
    rw [rereadFiles, List.mem_singleton] at h
    exact ⟨f, List.mem_singleton_self f, by rw [h]⟩
  | case3 f next rest ih =>
    rw [rereadFiles] at h
    rcases List.mem_cons.mp h with rfl | hrest
    · exact ⟨f, List.mem_cons_self, rfl⟩
    · obtain ⟨g, hg, hpath⟩ := ih hrest
      exact ⟨g, List.mem_cons_of_mem f hg, hpath⟩

/-- Reading again keeps all that depends on the paths and on the trimmed codes. -/
theorem map_rereadFiles {β : Type} (g : Text → Text → β) (files : List SourceFile) :
    (rereadFiles files).map (fun file ↦ g file.path (Text.trim file.code)) =
      files.map fun file ↦ g file.path (Text.trim file.code) := by
  induction files using rereadFiles.induct with
  | case1 => rfl
  | case2 f => rw [rereadFiles, List.map_singleton, Text.trim_trim, List.map_singleton]
  | case3 f next rest ih =>
    rw [rereadFiles, List.map_cons, ih, Text.trim_append_of_allBlank (by decide), Text.trim_trim]
    rfl

theorem map_path_rereadFiles (files : List SourceFile) :
    (rereadFiles files).map (·.path) = files.map (·.path) :=
  map_rereadFiles (fun path _ ↦ path) files

theorem stacked_rereadFiles (folder : Text) (files : List SourceFile) :
    stacked folder (rereadFiles files) = stacked folder files := by
  have hmap := map_rereadFiles (fun path code ↦
    Directive.marker ++ SourceFile.nameIn folder ⟨path, code, false⟩ ++ '\n' :: code) files
  exact congrArg (listingGap.intercalate ·) hmap

theorem directiveFree_rereadFiles {files : List SourceFile}
    (h : ∀ file ∈ files, DirectiveFree (Text.trim file.code)) :
    ∀ file ∈ rereadFiles files, DirectiveFree file.code := by
  induction files using rereadFiles.induct with
  | case1 => simp [rereadFiles]
  | case2 f =>
    rw [rereadFiles]
    simpa using h
  | case3 f next rest ih =>
    rw [rereadFiles]
    refine List.forall_mem_cons.mpr ⟨?_, ih fun g hg ↦ h g (List.mem_cons_of_mem f hg)⟩
    exact directiveFree_append_gap (h f List.mem_cons_self)

theorem stacked_singleton (folder : Text) (file : SourceFile) :
    stacked folder [file] = file.withDirective folder := by
  rw [stacked, List.map_singleton, List.intercalate_singleton]

theorem stacked_cons_cons (folder : Text) (file next : SourceFile) (rest : List SourceFile) :
    stacked folder (file :: next :: rest) =
      file.withDirective folder ++ listingGap ++ stacked folder (next :: rest) := by
  rw [stacked, List.map_cons, List.map_cons, List.intercalate_cons_cons, ← List.map_cons, stacked]

/-- The text of a listing, piece by piece. -/
theorem stacked_eq_flatMap (folder : Text) (files : List SourceFile) :
    stacked folder files =
      (rereadFiles files).flatMap fun file ↦ file.headerIn folder ++ file.code := by
  induction files using rereadFiles.induct with
  | case1 => rfl
  | case2 f =>
    rw [rereadFiles, stacked_singleton, SourceFile.withDirective_eq, List.flatMap_singleton]
    rfl
  | case3 f next rest ih =>
    rw [rereadFiles, stacked_cons_cons, ih, SourceFile.withDirective_eq, List.flatMap_cons]
    simp [SourceFile.headerIn, SourceFile.nameIn, listingGap]

theorem rows_stacked {folder : Text} {files : List SourceFile}
    (h : ∀ file ∈ files, file.Nameable folder) :
    Text.rows (stacked folder files) =
      (rereadFiles files).flatMap fun file ↦ file.headerIn folder :: Text.rows file.code := by
  rw [stacked_eq_flatMap]
  induction files using rereadFiles.induct with
  | case1 => rfl
  | case2 f =>
    have hf : (⟨f.path, Text.trim f.code, false⟩ : SourceFile).Nameable folder :=
      h f List.mem_cons_self
    rw [rereadFiles, List.flatMap_singleton, List.flatMap_singleton,
      SourceFile.rows_headerIn_append hf]
  | case3 f next rest ih =>
    have hf : (⟨f.path, Text.trim f.code ++ ['\n', '\n', '\n'], false⟩ : SourceFile).Nameable
        folder := h f List.mem_cons_self
    have hend : Text.Terminated (Text.trim f.code ++ ['\n', '\n', '\n']) := by
      have happend := Text.terminated_append_singleton (Text.trim f.code ++ ['\n', '\n'])
      rwa [List.append_assoc] at happend
    rw [rereadFiles, List.flatMap_cons, List.flatMap_cons, List.append_assoc,
      SourceFile.rows_headerIn_append hf, Text.rows_append hend,
      ih fun g hg ↦ h g (List.mem_cons_of_mem f hg), List.cons_append]

theorem listing_of_length_ne_one {files : List SourceFile} (h : (shownFiles files).length ≠ 1)
    (folder : Text) :
    listing folder files =
      stacked folder (shownFiles files) := by
  unfold listing
  split
  · rename_i only heq
    exact absurd (congrArg List.length heq) h
  · rfl

theorem listing_of_shownFiles_eq_singleton {files : List SourceFile} {only : SourceFile}
    (h : shownFiles files = [only]) (folder : Text) : listing folder files = only.code := by
  unfold shownFiles at h
  rw [listing, h]

theorem nameable_of_mem_rereadFiles {folder : Text} {files : List SourceFile}
    (h : ∀ file ∈ files, file.Nameable folder) :
    ∀ file ∈ rereadFiles files, file.Nameable folder := by
  intro file hfile
  obtain ⟨f, hf, hpath⟩ := path_of_mem_rereadFiles hfile
  obtain ⟨name, hname, hrest⟩ := h f hf
  exact ⟨name, hpath.trans hname, hrest⟩

/-- The cut of a listing has one section for each file. -/
theorem ofText_stacked {folder : Text} {files : List SourceFile}
    (hnames : ∀ file ∈ files, file.Nameable folder)
    (hcodes : ∀ file ∈ files, DirectiveFree (Text.trim file.code)) :
    Sections.ofText (stacked folder files) =
      ⟨[], (rereadFiles files).map (·.sectionIn folder)⟩ := by
  have hreread := nameable_of_mem_rereadFiles hnames
  apply Sections.Cuts.ofText_eq
  refine ⟨?_, ?_, directiveFree_nil, ?_⟩
  · rw [rows_stacked hnames, List.flatMap_map]
    rfl
  · intro part hpart
    obtain ⟨file, hfile, rfl⟩ := List.mem_map.mp hpart
    exact SourceFile.onRow_headerIn (hreread file hfile)
  · intro part hpart
    obtain ⟨file, hfile, rfl⟩ := List.mem_map.mp hpart
    exact directiveFree_rereadFiles hcodes file hfile

/-- Sections of different files declare the files themselves. -/
theorem entries_ofList_declared {folder : Text} {files : List SourceFile}
    (hnonempty : files ≠ []) (hnames : ∀ file ∈ files, file.Nameable folder)
    (hpaths : (files.map (·.path)).Nodup) (hhidden : ∀ file ∈ files, file.hidden = false)
    (default : Text) :
    (Table.ofList (FileSet.declared folder default
      ⟨[], files.map (·.sectionIn folder)⟩)).entries = files.map fun file ↦ (file.path, file) := by
  have hlength : files.length ≠ 0 := fun h ↦ hnonempty (List.length_eq_zero_iff.mp h)
  have hdeclared : FileSet.declared folder default ⟨[], files.map (·.sectionIn folder)⟩ =
      files.map fun file ↦ (file.path, file) := by
    rw [FileSet.declared, if_neg (by simp [hlength, Text.allBlank]), List.nil_append,
      List.map_map]
    refine List.map_congr_left fun file hfile ↦ ?_
    simp [FileSet.entry, SourceFile.sectionIn, ← (hnames file hfile).path_eq,
      ← hhidden file hfile]
  rw [hdeclared, Table.entries_ofList]
  simpa [Function.comp_def] using hpaths

theorem hidden_of_mem_rereadFiles {files : List SourceFile} :
    ∀ file ∈ rereadFiles files, file.hidden = false := by
  induction files using rereadFiles.induct with
  | case1 => simp [rereadFiles]
  | case2 f => simp [rereadFiles]
  | case3 f next rest ih =>
    rw [rereadFiles]
    exact List.forall_mem_cons.mpr ⟨rfl, ih⟩

theorem shownFiles_rereadFiles (files : List SourceFile) :
    shownFiles (rereadFiles files) = rereadFiles files := by
  rw [shownFiles, List.filter_eq_self]
  intro file hfile
  rw [hidden_of_mem_rereadFiles file hfile]
  rfl

/-- A listed file is read with its trimmed code, and perhaps with the gap behind it. -/
theorem exists_mem_rereadFiles {files : List SourceFile} {file : SourceFile} (h : file ∈ files) :
    ∃ f ∈ rereadFiles files,
      f.code = Text.trim file.code ∨ f.code = Text.trim file.code ++ ['\n', '\n', '\n'] := by
  induction files using rereadFiles.induct with
  | case1 => exact absurd h List.not_mem_nil
  | case2 g =>
    rw [List.mem_singleton.mp h]
    exact ⟨_, List.mem_singleton_self _, .inl rfl⟩
  | case3 g next rest ih =>
    rcases List.mem_cons.mp h with rfl | hrest
    · exact ⟨_, List.mem_cons_self, .inr rfl⟩
    · obtain ⟨f, hf, hcode⟩ := ih hrest
      exact ⟨f, List.mem_cons_of_mem _ hf, hcode⟩

/-- Only the last file of a listing can be read as an empty one. -/
theorem code_ne_nil_of_rereadFiles_eq_append {files before after : List SourceFile}
    {file next : SourceFile} (h : rereadFiles files = before ++ file :: next :: after) :
    file.code ≠ [] := by
  induction files using rereadFiles.induct generalizing before with
  | case1 => simp [rereadFiles] at h
  | case2 f =>
    have hlength := congrArg List.length h
    simp only [rereadFiles, List.length_append, List.length_cons, List.length_nil] at hlength
    omega
  | case3 f g rest ih =>
    rw [rereadFiles] at h
    cases before with
    | nil =>
      obtain ⟨rfl, -⟩ := List.cons.inj h
      simp
    | cons _ before => exact ih (List.cons.inj h).2

/-- The entries that are read from a listing. -/
theorem entries_ofBlock_stacked {folder : Text} {files : List SourceFile}
    (hnonempty : files ≠ []) (hnames : ∀ file ∈ files, file.Nameable folder)
    (hpaths : (files.map (·.path)).Nodup)
    (hcodes : ∀ file ∈ files, DirectiveFree (Text.trim file.code)) (default : Text) :
    (FileSet.ofBlock folder default
      (stacked folder files)).entries =
        (rereadFiles files).map fun file ↦ (file.path, file) := by
  have hreread : rereadFiles files ≠ [] := by
    intro h
    have hempty := map_path_rereadFiles files
    rw [h, List.map_nil, eq_comm, List.map_eq_nil_iff] at hempty
    exact hnonempty hempty
  rw [FileSet.ofBlock_eq, ofText_stacked hnames hcodes]
  apply entries_ofList_declared hreread (nameable_of_mem_rereadFiles hnames) _
    hidden_of_mem_rereadFiles
  rwa [map_path_rereadFiles]

/-- Reading a listing of several files gives back the shown files in their order, each with its
trimmed code and the gap behind it, and no other file. -/
theorem ofBlock_listing (folder default : Text) (files : List SourceFile)
    (hcount : 2 ≤ (shownFiles files).length)
    (hnames : ∀ file ∈ shownFiles files, file.Nameable folder)
    (hpaths : ((shownFiles files).map (·.path)).Nodup)
    (hcodes : ∀ file ∈ shownFiles files, DirectiveFree (Text.trim file.code)) :
    (FileSet.ofBlock folder default (listing folder files)).entries =
      (rereadFiles (shownFiles files)).map fun file ↦ (file.path, file) := by
  have hnonempty : shownFiles files ≠ [] := by
    intro h
    simp [h] at hcount
  rw [listing_of_length_ne_one (by omega)]
  exact entries_ofBlock_stacked hnonempty hnames hpaths hcodes default

theorem entries_ofBlock_listing_around_hidden :
    (FileSet.ofBlock ['d'] defaultFileName (listing ['d'] [
        ⟨"d/a.ts".toList, "\n  let a = 1\n".toList, false⟩,
        ⟨"d/types.ts".toList, "type T = string\n".toList, true⟩,
        ⟨"d/b.ts".toList, "let b = a".toList, false⟩])).entries = [
      ("d/a.ts".toList, ⟨"d/a.ts".toList, "let a = 1\n\n\n".toList, false⟩),
      ("d/b.ts".toList, ⟨"d/b.ts".toList, "let b = a".toList, false⟩)] := by
  have hlisting := ofBlock_listing ['d'] defaultFileName [
    ⟨"d/a.ts".toList, "\n  let a = 1\n".toList, false⟩,
    ⟨"d/types.ts".toList, "type T = string\n".toList, true⟩,
    ⟨"d/b.ts".toList, "let b = a".toList, false⟩] (by decide) (by decide) (by decide) (by decide)
  rw [hlisting]
  decide

end FencedCode
