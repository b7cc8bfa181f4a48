import FencedCode.Proofs.Compiler.Request
import FencedCode.Proofs.Source.Section
import FencedCode.Proofs.Workspace.Version

/-!
# What a request shows its checker

A request writes the codes of its files before it calls the checker, and no call changes them. Two
keys of a request may be spellings of one path. Under each of them the checker then finds the code
that was written last, and not the code of the file that it is called for.
-/

namespace FencedCode

theorem Workspace.read_of_text? {w : Workspace} {path text : Text}
    (h : w.overlay.text? path = some text) (fs : FileSystem) :
    Workspace.read fs path w = (some text, w) := by
  obtain ⟨file, hfile, rfl⟩ := Option.map_eq_some_iff.mp h
  rw [Workspace.read, hfile]

theorem Workspace.isVirtual_of_text? {w : Workspace} {path text : Text}
    (h : w.overlay.text? path = some text) : w.isVirtual path := by
  rw [isVirtual, Overlay.contains_eq_isSome_text?, h, Option.isSome_some]

theorem Workspace.Agrees.text? {w w' : Workspace} (h : w.Agrees w') (path : Text) :
    w'.overlay.text? path = w.overlay.text? path := by rw [h.overlay]

namespace FileSet

/-- What a request for the files writes, in order. -/
def writes (files : FileSet) : List (Text × Text) :=
  files.entries.map fun e ↦ (e.1, fillEmptyLines e.2.code)

/-- The file is the last of those whose keys are spellings of the path. -/
def LastAt (files : FileSet) (path : Text) (file : SourceFile) : Prop :=
  ∃ earlier key later, files.entries = earlier ++ (key, file) :: later ∧
    Path.normalize key = Path.normalize path ∧
    ∀ e ∈ later, Path.normalize e.1 ≠ Path.normalize path

theorem exists_lastAt {files : FileSet} {path : Text} (h : path ∈ files.keys) :
    ∃ file, files.LastAt path file := by
  have hmem : Path.normalize path ∈
      (files.entries.map fun e ↦ (Path.normalize e.1, e)).map Prod.fst := by
    rw [List.map_map]
    obtain ⟨e, he, rfl⟩ := List.mem_map.mp h
    exact List.mem_map_of_mem he
  obtain ⟨before, e, after, hsplit, hafter⟩ := Table.exists_last_of_mem hmem
  obtain ⟨earlier, others, hentries, -, hothers⟩ := List.map_eq_append_iff.mp hsplit
  obtain ⟨_, later, rfl, he, hlater⟩ := List.map_eq_cons_iff.mp hothers
  obtain ⟨hname, rfl⟩ := Prod.mk.inj he
  refine ⟨_, earlier, _, later, hentries, hname, fun d hd heq ↦ hafter ?_⟩
  rw [← hlater, List.map_map, ← heq]
  exact List.mem_map_of_mem hd

/-- When the keys mean different files, each file is the last at its key. -/
theorem lastAt_of_nodup {files : FileSet} {path : Text} {file : SourceFile}
    (hpaths : (files.keys.map Path.normalize).Nodup) (hfile : files.get? path = some file) :
    files.LastAt path file := by
  obtain ⟨earlier, later, hsplit⟩ := List.append_of_mem (Table.get?_eq_some_iff.mp hfile)
  refine ⟨earlier, path, later, hsplit, rfl, fun e he hsame ↦ ?_⟩
  rw [Table.keys, hsplit, List.map_map, List.map_append, List.map_cons,
    List.nodup_append] at hpaths
  have hfresh := (List.nodup_cons.mp hpaths.2.1).1
  exact hfresh (List.mem_map.mpr ⟨e, he, hsame⟩)

theorem LastAt.mem_values {files : FileSet} {path : Text} {file : SourceFile}
    (h : files.LastAt path file) : file ∈ files.values := by
  obtain ⟨earlier, _, later, hsplit, -, -⟩ := h
  rw [Table.values, hsplit, List.map_append, List.map_cons]
  exact List.mem_append_right _ List.mem_cons_self

theorem LastAt.text?_writeAll {files : FileSet} {path : Text} {file : SourceFile}
    (h : files.LastAt path file) (o : Overlay) :
    (o.writeAll files.writes).text? path = some (fillEmptyLines file.code) := by
  obtain ⟨earlier, key, later, hentries, hname, hlater⟩ := h
  rw [writes, hentries, List.map_append, List.map_cons]
  refine Overlay.text?_writeAll_append_cons hname (fun e he ↦ ?_) o _ _
  obtain ⟨d, hd, rfl⟩ := List.mem_map.mp he
  exact hlater d hd

/-- After the writes of a request each of its keys has the text that one of its files has written,
whatever was written before. -/
theorem exists_text?_writeAll {files : FileSet} {e : Text × SourceFile} (he : e ∈ files.entries) :
    ∃ file ∈ files.values, ∀ o : Overlay,
      (o.writeAll files.writes).text? e.1 = some (fillEmptyLines file.code) := by
  obtain ⟨file, hlast⟩ := exists_lastAt (List.mem_map_of_mem (f := Prod.fst) he)
  exact ⟨file, hlast.mem_values, hlast.text?_writeAll⟩

end FileSet

namespace Compiler

/-- A request changes the overlay and the files to check, and nothing else of the workspace. -/
theorem prepare_eq (files : FileSet) (w : Workspace) :
    prepare files w = { w with
      overlay := w.overlay.writeAll files.writes
      scripts := files.keys.map Path.normalize } := by
  have hfold : ∀ (entries : List (Text × SourceFile)) (w : Workspace),
      entries.foldl (fun w e ↦ w.write e.1 (fillEmptyLines e.2.code)) w = { w with
        overlay := w.overlay.writeAll (entries.map fun e ↦ (e.1, fillEmptyLines e.2.code)) } := by
    intro entries
    induction entries with
    | nil => exact fun _ ↦ rfl
    | cons e rest ih => exact fun w ↦ ih (w.write e.1 (fillEmptyLines e.2.code))
  exact congrArg (Workspace.setScripts · files.keys) (hfold files.entries (w.setScripts []))

theorem overlay_prepare (files : FileSet) (w : Workspace) :
    (prepare files w).overlay = w.overlay.writeAll files.writes := by rw [prepare_eq]

variable {σ : Type} (checker : Checker σ) (fs : FileSystem)

/-- The request for files comes to the file at the path in this state. -/
def Reaches (files : FileSet) (c : Compiler σ) (path : Text) (start : Compiler σ) : Prop :=
  ∃ earlier file later done, files.entries = earlier ++ (path, file) :: later ∧
    run (compileFiles checker fs earlier) { c with workspace := prepare files c.workspace } =
      (.ok done, start)

/-- The request calls the checker for the file at the path in this state: to emit it, or for its
diagnostics. Each call begins where the one before it has ended. -/
inductive CallsFor (files : FileSet) (c : Compiler σ) (path : Text) : Compiler σ → Prop
  | emit {start : Compiler σ} (hstart : Reaches checker fs files c path start) :
      CallsFor files c path start
  | options {start c₁ : Compiler σ} {emitted : List EmittedFile}
      (hstart : Reaches checker fs files c path start)
      (hemit : run (call fs (checker.emit path)) start = (.ok emitted, c₁)) :
      CallsFor files c path c₁
  | syntactic {start c₁ c₂ : Compiler σ} {emitted : List EmittedFile}
      {ofOptions : List RawDiagnostic} (hstart : Reaches checker fs files c path start)
      (hemit : run (call fs (checker.emit path)) start = (.ok emitted, c₁))
      (hoptions : run (call fs checker.optionDiagnostics) c₁ = (.ok ofOptions, c₂)) :
      CallsFor files c path c₂
  | semantic {start c₁ c₂ c₃ : Compiler σ} {emitted : List EmittedFile}
      {ofOptions ofSyntax : List RawDiagnostic} (hstart : Reaches checker fs files c path start)
      (hemit : run (call fs (checker.emit path)) start = (.ok emitted, c₁))
      (hoptions : run (call fs checker.optionDiagnostics) c₁ = (.ok ofOptions, c₂))
      (hparens : run (call fs (checker.syntaxDiagnostics path)) c₂ = (.ok ofSyntax, c₃)) :
      CallsFor files c path c₃

theorem run_compile (files : FileSet) (c : Compiler σ) :
    run (compile checker fs files) c =
      run (do return Table.ofList (← compileFiles checker fs files.entries))
        ⟨prepare files c.workspace, c.state⟩ := rfl

/-- Whether a request succeeds or not, it leaves the workspace as it was prepared. -/
theorem agrees_run_compile (files : FileSet) (c : Compiler σ) :
    (prepare files c.workspace).Agrees (run (compile checker fs files) c).2.workspace := by
  rw [run_compile]
  exact (onlyAsks_compileFiles checker fs files.entries).bind (fun _ ↦ OnlyAsks.pure _)
    ⟨prepare files c.workspace, c.state⟩

theorem overlay_run_compile (files : FileSet) (c : Compiler σ) :
    (run (compile checker fs files) c).2.workspace.overlay =
      c.workspace.overlay.writeAll files.writes := by
  rw [(agrees_run_compile checker fs files c).overlay, overlay_prepare]

variable {checker fs} {files : FileSet} {c c' : Compiler σ} {path : Text}

theorem Reaches.mem_keys {start : Compiler σ} (h : Reaches checker fs files c path start) :
    path ∈ files.keys := by
  obtain ⟨earlier, _, later, _, hsplit, -⟩ := h
  rw [Table.keys, hsplit, List.map_append, List.map_cons]
  exact List.mem_append_right _ List.mem_cons_self

theorem Reaches.overlay {start : Compiler σ} (h : Reaches checker fs files c path start) :
    start.workspace.overlay = c.workspace.overlay.writeAll files.writes := by
  obtain ⟨earlier, _, _, _, -, hrun⟩ := h
  rw [((onlyAsks_compileFiles checker fs earlier).of_run_eq hrun).overlay, ← overlay_prepare]

/-- A request for one file comes to it at once. -/
theorem Reaches.eq_of_entries_eq_singleton {start : Compiler σ}
    (h : Reaches checker fs files c path start) {entry : Text × SourceFile}
    (hentries : files.entries = [entry]) :
    start = { c with workspace := prepare files c.workspace } := by
  obtain ⟨earlier, _, _, _, hsplit, hrun⟩ := h
  have hnil : earlier = [] := by
    have hlength := congrArg List.length (hentries.symm.trans hsplit)
    simp only [List.length_append, List.length_cons, List.length_nil] at hlength
    exact List.eq_nil_of_length_eq_zero (by omega)
  rw [hnil] at hrun
  exact (run_pure_eq_ok_iff.mp hrun).2.symm

/-- Every call of a request finds the overlay as the request has written it. -/
theorem CallsFor.overlay (h : CallsFor checker fs files c path c') :
    c'.workspace.overlay = c.workspace.overlay.writeAll files.writes := by
  cases h with
  | emit hstart => exact hstart.overlay
  | options hstart hemit => rw [((onlyAsks_call fs _).of_run_eq hemit).overlay, hstart.overlay]
  | syntactic hstart hemit hoptions =>
    rw [((onlyAsks_call fs _).of_run_eq hoptions).overlay,
      ((onlyAsks_call fs _).of_run_eq hemit).overlay, hstart.overlay]
  | semantic hstart hemit hoptions hparens =>
    rw [((onlyAsks_call fs _).of_run_eq hparens).overlay,
      ((onlyAsks_call fs _).of_run_eq hoptions).overlay,
      ((onlyAsks_call fs _).of_run_eq hemit).overlay, hstart.overlay]

theorem CallsFor.read_of_lastAt (h : CallsFor checker fs files c path c') {last : SourceFile}
    (hlast : files.LastAt path last) (fs' : FileSystem) :
    (Workspace.read fs' path c'.workspace).1 = some (fillEmptyLines last.code) := by
  rw [Workspace.read_of_text? (by rw [h.overlay, hlast.text?_writeAll])]

/-- Whenever the checker is called for a file of a block, it finds at the path the code of the last
file of the block that has a spelling of the path as its own. This is the code of the file that it
is called for exactly when the two have the same lines, empty ones filled. -/
theorem read_during_call_iff (checker : Checker σ) (fs fs' : FileSystem)
    (folder default text path : Text) (file : SourceFile) (c c' : Compiler σ)
    (hfile : (FileSet.ofBlock folder default text).get? path = some file)
    (hcall : CallsFor checker fs (FileSet.ofBlock folder default text) c path c') :
    ∃ last, (FileSet.ofBlock folder default text).LastAt path last ∧
      (Workspace.read fs' path c'.workspace).1 = some (fillEmptyLines last.code) ∧
      ((Workspace.read fs' path c'.workspace).1 = some (fillEmptyLines file.code) ↔
        fillEmptyLines last.code = fillEmptyLines file.code) := by
  have hkey : path ∈ (FileSet.ofBlock folder default text).keys :=
    (Table.contains_iff _ _).mp (by rw [Table.contains, hfile, Option.isSome_some])
  obtain ⟨last, hlast⟩ := FileSet.exists_lastAt hkey
  have hread := hcall.read_of_lastAt hlast fs'
  exact ⟨last, hlast, hread, by rw [hread, Option.some_inj]⟩

theorem exists_callsFor_steadyChecker (raws : List RawDiagnostic) (fs : FileSystem)
    (files : FileSet) (path : Text) (c : Compiler Unit) (hpath : path ∈ files.keys) :
    ∃ c', CallsFor (steadyChecker raws) fs files c path c' := by
  obtain ⟨e, he, rfl⟩ := List.mem_map.mp hpath
  obtain ⟨earlier, later, hsplit⟩ := List.append_of_mem he
  obtain ⟨done, start, hdone⟩ := succeeds_compileFiles (succeeds_check_steadyChecker fs raws)
    earlier { c with workspace := prepare files c.workspace }
  exact ⟨start, .emit ⟨earlier, e.2, later, done, hsplit, hdone⟩⟩

theorem exists_read_during_call :
    (FileSet.ofBlock ['d'] defaultFileName "// file: a.ts\nx\n// file: ./a.ts\n\ny".toList).get?
        "d/a.ts".toList = some ⟨"d/a.ts".toList, "x\n".toList, false⟩ ∧
    ∃ c' last, CallsFor (steadyChecker []) .empty
        (FileSet.ofBlock ['d'] defaultFileName "// file: a.ts\nx\n// file: ./a.ts\n\ny".toList)
        ⟨Workspace.ofOptions .empty Table.empty, ()⟩ "d/a.ts".toList c' ∧
      (FileSet.ofBlock ['d'] defaultFileName
        "// file: a.ts\nx\n// file: ./a.ts\n\ny".toList).LastAt "d/a.ts".toList last ∧
      (Workspace.read .empty "d/a.ts".toList c'.workspace).1 = some (fillEmptyLines last.code) := by
  obtain ⟨c', hcall⟩ := exists_callsFor_steadyChecker [] .empty (FileSet.ofBlock ['d']
    defaultFileName "// file: a.ts\nx\n// file: ./a.ts\n\ny".toList) "d/a.ts".toList
    ⟨Workspace.ofOptions .empty Table.empty, ()⟩ (by decide)
  obtain ⟨last, hlast, hread, -⟩ := read_during_call_iff (steadyChecker []) .empty .empty ['d']
    defaultFileName _ "d/a.ts".toList ⟨"d/a.ts".toList, "x\n".toList, false⟩ _ c' (by decide) hcall
  exact ⟨by decide, c', last, hcall, hlast, hread⟩

/-- The second name is another spelling of the first, so the checker reads the second code for the
first file. -/
theorem read_during_call_ne_own_code :
    ∃ c', (FileSet.ofBlock ['d'] defaultFileName
        "// file: a.ts\nx\n// file: ./a.ts\ny".toList).get? "d/a.ts".toList =
          some ⟨"d/a.ts".toList, "x\n".toList, false⟩ ∧
      CallsFor (steadyChecker []) .empty
        (FileSet.ofBlock ['d'] defaultFileName "// file: a.ts\nx\n// file: ./a.ts\ny".toList)
        ⟨Workspace.ofOptions .empty Table.empty, ()⟩ "d/a.ts".toList c' ∧
      (Workspace.read .empty "d/a.ts".toList c'.workspace).1 ≠
        some (fillEmptyLines "x\n".toList) := by
  obtain ⟨c', hcall⟩ := exists_callsFor_steadyChecker [] .empty (FileSet.ofBlock ['d']
    defaultFileName "// file: a.ts\nx\n// file: ./a.ts\ny".toList) "d/a.ts".toList
    ⟨Workspace.ofOptions .empty Table.empty, ()⟩ (by decide)
  have htext : c'.workspace.overlay.text? "d/a.ts".toList = some ['y'] := by
    rw [hcall.overlay]
    decide
  have hne : (some ['y'] : Option Text) ≠ some (fillEmptyLines "x\n".toList) := by decide
  refine ⟨c', by decide, hcall, ?_⟩
  rwa [Workspace.read_of_text? htext]

end Compiler

end FencedCode
