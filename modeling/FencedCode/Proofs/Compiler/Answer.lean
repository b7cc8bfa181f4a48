import FencedCode.Checker.Line
import FencedCode.Proofs.Compiler.Snapshot
import FencedCode.Proofs.Source.Placeholder

/-!
# What a request comes to

A request asks the checker about its files in order: to emit the file, and for diagnostics of the
options, of its syntax and of its types. When every call succeeds, the result holds the answers,
file by file. The first call that fails ends the request with its error. In both cases the files of
the request are written, they are the files to check, and nothing else has changed in the overlay.
-/

namespace FencedCode

/-! ## Places of diagnostics -/

/-- A text that is read stays what it is when other texts are read first. -/
theorem ReadCache.read_after_read (fs : FileSystem) (first path : Text) (cache : ReadCache) :
    ((cache.read fs first).2.read fs path).1 = (cache.read fs path).1 := by
  unfold read
  cases hcached : cache.texts.get? first with
  | some text => rfl
  | none =>
    cases hfirst : fs.readText first with
    | none => rfl
    | some text =>
      dsimp only
      rw [Table.get?_insert]
      by_cases hsame : first = path
      · rw [if_pos hsame, ← hsame, hcached, hfirst]
      · rw [if_neg hsame]
        cases cache.texts.get? path with
        | some _ => rfl
        | none => cases fs.readText path <;> rfl

namespace Workspace

/-- The texts of files as the workspace shows them. -/
def text? (fs : FileSystem) (w : Workspace) (path : Text) : Option Text := (read fs path w).1

theorem text?_after_read (fs : FileSystem) (first : Text) (w : Workspace) :
    (read fs first w).2.text? fs = w.text? fs := by
  funext path
  unfold text? read
  cases w.overlay.get? first with
  | some file => rfl
  | none =>
    dsimp only
    cases w.overlay.get? path with
    | some file => rfl
    | none => exact w.reads.read_after_read fs _ _

end Workspace

/-- A raw diagnostic with its position in the text of the file that it names. -/
def RawDiagnostic.placed (text? : Text → Option Text) (raw : RawDiagnostic) : Diagnostic :=
  match raw.file.bind text? with
  | some text => .ofRaw raw text
  | none => .unplaced raw

namespace Compiler

theorem place_eq (fs : FileSystem) (raw : RawDiagnostic) (w : Workspace) :
    (place fs raw w).1 = raw.placed (w.text? fs) ∧ (place fs raw w).2.text? fs = w.text? fs := by
  unfold place RawDiagnostic.placed
  cases hfile : raw.file with
  | none => exact ⟨rfl, rfl⟩
  | some file =>
    have hsame := Workspace.text?_after_read fs file w
    simp only [bind, StateT.bind, Option.bind_some, Workspace.text?]
    rcases hread : Workspace.read fs file w with ⟨_ | text, w'⟩
    all_goals
      rw [hread] at hsame
      exact ⟨rfl, hsame⟩

/-- Each diagnostic is placed as if it were the only one. -/
theorem placeAll_eq (fs : FileSystem) (raws : List RawDiagnostic) (w : Workspace) :
    (placeAll fs raws w).1 = raws.map (·.placed (w.text? fs)) := by
  induction raws generalizing w with
  | nil => rfl
  | cons raw rest ih =>
    obtain ⟨hplace, htexts⟩ := place_eq fs raw w
    show (place fs raw w).1 :: (placeAll fs rest (place fs raw w).2).1 = _
    rw [hplace, ih, htexts, List.map_cons]

/-! ## The calls for one file -/

/-- What the checker answers about one file. -/
structure Answers where
  emitted : List EmittedFile
  ofOptions : List RawDiagnostic
  ofSyntax : List RawDiagnostic
  ofTypes : List RawDiagnostic

/-- All diagnostics, in the order in which the checker is asked for them. -/
def Answers.diagnostics (a : Answers) : List RawDiagnostic :=
  a.ofOptions ++ a.ofSyntax ++ a.ofTypes

variable {σ : Type} (checker : Checker σ) (fs : FileSystem)

/-- The calls for the file succeed one after another, with these answers. -/
def Answered (path : Text) (start : Compiler σ) (a : Answers) (after : Compiler σ) : Prop :=
  ∃ c₁ c₂ c₃, run (call fs (checker.emit path)) start = (.ok a.emitted, c₁) ∧
    run (call fs checker.optionDiagnostics) c₁ = (.ok a.ofOptions, c₂) ∧
    run (call fs (checker.syntaxDiagnostics path)) c₂ = (.ok a.ofSyntax, c₃) ∧
    run (call fs (checker.typeDiagnostics path)) c₃ = (.ok a.ofTypes, after)

/-- One of the calls for the file fails, and those in front of it succeed. -/
inductive CallFails (path : Text) (start : Compiler σ) (e : MissingRedirect)
    (after : Compiler σ) : Prop
  | emit (h : run (call fs (checker.emit path)) start = (.error e, after)) :
      CallFails path start e after
  | options {emitted : List EmittedFile} {c₁ : Compiler σ}
      (hemit : run (call fs (checker.emit path)) start = (.ok emitted, c₁))
      (h : run (call fs checker.optionDiagnostics) c₁ = (.error e, after)) :
      CallFails path start e after
  | syntactic {emitted : List EmittedFile} {ofOptions : List RawDiagnostic} {c₁ c₂ : Compiler σ}
      (hemit : run (call fs (checker.emit path)) start = (.ok emitted, c₁))
      (hoptions : run (call fs checker.optionDiagnostics) c₁ = (.ok ofOptions, c₂))
      (h : run (call fs (checker.syntaxDiagnostics path)) c₂ = (.error e, after)) :
      CallFails path start e after
  | semantic {emitted : List EmittedFile} {ofOptions ofSyntax : List RawDiagnostic}
      {c₁ c₂ c₃ : Compiler σ}
      (hemit : run (call fs (checker.emit path)) start = (.ok emitted, c₁))
      (hoptions : run (call fs checker.optionDiagnostics) c₁ = (.ok ofOptions, c₂))
      (hparens : run (call fs (checker.syntaxDiagnostics path)) c₂ = (.ok ofSyntax, c₃))
      (h : run (call fs (checker.typeDiagnostics path)) c₃ = (.error e, after)) :
      CallFails path start e after

variable {checker fs} {path : Text} {start after : Compiler σ}

theorem run_check_eq_ok_iff {findings : Findings} :
    run (check checker fs path) start = (.ok findings, after) ↔
      ∃ a, Answered checker fs path start a after ∧ findings = ⟨a.emitted, a.diagnostics⟩ := by
  unfold check
  simp only [run_bind_eq_ok_iff, run_pure_eq_ok_iff]
  constructor
  · rintro ⟨emitted, c₁, hemit, ofOptions, c₂, hoptions, ofSyntax, c₃, hparens, ofTypes, _,
      htypes, rfl, rfl⟩
    exact ⟨⟨emitted, ofOptions, ofSyntax, ofTypes⟩,
      ⟨c₁, c₂, c₃, hemit, hoptions, hparens, htypes⟩, rfl⟩
  · rintro ⟨a, ⟨c₁, c₂, c₃, hemit, hoptions, hparens, htypes⟩, rfl⟩
    exact ⟨_, c₁, hemit, _, c₂, hoptions, _, c₃, hparens, _, after, htypes, rfl, rfl⟩

theorem run_check_eq_error_iff {e : MissingRedirect} :
    run (check checker fs path) start = (.error e, after) ↔
      CallFails checker fs path start e after := by
  unfold check
  simp only [run_bind_eq_error_iff, run_pure_ne_error, and_false, exists_false, or_false]
  constructor
  · rintro (h | ⟨_, _, hemit, h | ⟨_, _, hoptions, h | ⟨_, _, hparens, h⟩⟩⟩)
    · exact .emit h
    · exact .options hemit h
    · exact .syntactic hemit hoptions h
    · exact .semantic hemit hoptions hparens h
  · rintro (h | ⟨hemit, h⟩ | ⟨hemit, hoptions, h⟩ | ⟨hemit, hoptions, hparens, h⟩)
    · exact .inl h
    · exact .inr ⟨_, _, hemit, .inl h⟩
    · exact .inr ⟨_, _, hemit, .inr ⟨_, _, hoptions, .inl h⟩⟩
    · exact .inr ⟨_, _, hemit, .inr ⟨_, _, hoptions, .inr ⟨_, _, hparens, h⟩⟩⟩

theorem run_compileFile_eq_error_iff {file : SourceFile} {e : MissingRedirect} :
    run (compileFile checker fs path file) start = (.error e, after) ↔
      CallFails checker fs path start e after := by
  unfold compileFile
  simp only [run_bind_eq_error_iff, run_pure_ne_error, run_inWorkspace_ne_error, and_false,
    exists_false, or_false, run_check_eq_error_iff]

/-! ## The calls of a request -/

/-- Files are compiled up to the first call that fails. -/
theorem run_compileFiles_eq_error_iff {entries : List (Text × SourceFile)} {e : MissingRedirect}
    {c : Compiler σ} : run (compileFiles checker fs entries) c = (.error e, after) ↔
      ∃ earlier key file later done middle, entries = earlier ++ (key, file) :: later ∧
        run (compileFiles checker fs earlier) c = (.ok done, middle) ∧
        CallFails checker fs key middle e after := by
  constructor
  · intro h
    induction entries generalizing c with
    | nil => exact absurd h (run_pure_ne_error _ _ _ _)
    | cons entry rest ih =>
      obtain ⟨key, file⟩ := entry
      rw [compileFiles, run_bind_eq_error_iff] at h
      rcases h with hfirst | ⟨result, middle, hfirst, h⟩
      · exact ⟨[], key, file, rest, [], c, rfl, rfl, run_compileFile_eq_error_iff.mp hfirst⟩
      · simp only [run_bind_eq_error_iff, run_pure_ne_error, and_false, exists_false,
          or_false] at h
        obtain ⟨earlier, key', file', later, done, last, rfl, hdone, hfails⟩ := ih h
        refine ⟨(key, file) :: earlier, key', file', later, (key, result) :: done, last, rfl, ?_,
          hfails⟩
        exact run_bind_eq_ok_iff.mpr ⟨result, middle, hfirst,
          run_bind_eq_ok_iff.mpr ⟨done, last, hdone, rfl⟩⟩
  · rintro ⟨earlier, key, file, later, done, middle, rfl, hdone, hfails⟩
    rw [compileFiles_append, run_bind_eq_error_iff]
    refine .inr ⟨done, middle, hdone, run_bind_eq_error_iff.mpr (.inl ?_)⟩
    rw [compileFiles, run_bind_eq_error_iff]
    exact .inl (run_compileFile_eq_error_iff.mpr hfails)

variable {files : FileSet} {compiled : CompiledFiles} {c c' : Compiler σ}

/-- A request fails exactly when a call does that it comes to. -/
theorem run_compile_eq_error_iff {e : MissingRedirect} :
    run (compile checker fs files) c = (.error e, c') ↔
      ∃ path start, Reaches checker fs files c path start ∧
        CallFails checker fs path start e c' := by
  rw [run_compile]
  simp only [run_bind_eq_error_iff, run_pure_ne_error, and_false, exists_false, or_false]
  rw [run_compileFiles_eq_error_iff]
  constructor
  · rintro ⟨earlier, key, file, later, done, middle, hsplit, hdone, hfails⟩
    exact ⟨key, middle, ⟨earlier, file, later, done, hsplit, hdone⟩, hfails⟩
  · rintro ⟨path, start, ⟨earlier, file, later, done, hsplit, hdone⟩, hfails⟩
    exact ⟨earlier, path, file, later, done, start, hsplit, hdone, hfails⟩

/-- The request comes to the file and is given these answers about it. -/
def Learns (checker : Checker σ) (fs : FileSystem) (files : FileSet) (c : Compiler σ)
    (path : Text) (a : Answers) (after : Compiler σ) : Prop :=
  ∃ start, Reaches checker fs files c path start ∧ Answered checker fs path start a after

/-- The result for a file, from the answers about it. -/
def resultOf (fs : FileSystem) (path : Text) (file : SourceFile) (a : Answers)
    (after : Compiler σ) : CompiledFile :=
  ⟨path, emittedCode a.emitted, file.hidden,
    a.diagnostics.map (·.placed (after.workspace.text? fs))⟩

theorem keys_of_run_compile (hrun : run (compile checker fs files) c = (.ok compiled, c')) :
    compiled.keys = files.keys := by
  obtain ⟨results, hresults, rfl⟩ := (run_compile_eq_ok_iff checker fs).mp hrun
  have hkeys := map_fst_of_run_compileFiles checker fs hresults
  rw [Table.keys, Table.entries_ofList (by rw [hkeys]; exact files.nodup_keys), hkeys, Table.keys]

theorem exists_learns (hrun : run (compile checker fs files) c = (.ok compiled, c'))
    {file : SourceFile} (hfile : files.get? path = some file) :
    ∃ a after, Learns checker fs files c path a after ∧
      compiled.get? path = some (resultOf fs path file a after) := by
  obtain ⟨results, hresults, rfl⟩ := (run_compile_eq_ok_iff checker fs).mp hrun
  have hkeys := map_fst_of_run_compileFiles checker fs hresults
  obtain ⟨earlier, later, hsplit⟩ := List.append_of_mem (Table.get?_eq_some_iff.mp hfile)
  rw [hsplit] at hresults
  obtain ⟨done, start, result, _, rest, hdone, hresult, -, rfl⟩ :=
    run_compileFiles_append_cons checker fs hresults
  obtain ⟨findings, after, hcheck, rfl⟩ := run_compileFile_eq_ok checker fs hresult
  obtain ⟨a, hanswered, rfl⟩ := run_check_eq_ok_iff.mp hcheck
  refine ⟨a, after, ⟨start, ⟨earlier, file, later, done, hsplit, hdone⟩, hanswered⟩, ?_⟩
  rw [Table.get?_eq_some_iff, Table.entries_ofList (by rw [hkeys]; exact files.nodup_keys),
    placeAll_eq]
  exact List.mem_append_right _ List.mem_cons_self

/-- The result of a request that succeeds is made of the answers about its files. -/
theorem exists_answers (hrun : run (compile checker fs files) c = (.ok compiled, c')) :
    ∃ (answers : Text → Answers) (after : Text → Compiler σ),
      (∀ path ∈ files.keys, Learns checker fs files c path (answers path) (after path)) ∧
      compiled = files.map fun path file ↦ resultOf fs path file (answers path) (after path) := by
  have hlearns : ∀ path, ∃ a after, ∀ file, files.get? path = some file →
      Learns checker fs files c path a after ∧
        compiled.get? path = some (resultOf fs path file a after) := by
    intro path
    cases hfile : files.get? path with
    | none => exact ⟨⟨[], [], [], []⟩, c, fun _ h ↦ absurd h.symm (Option.some_ne_none _)⟩
    | some file =>
      obtain ⟨a, after, h⟩ := exists_learns hrun hfile
      exact ⟨a, after, fun _ hsame ↦ Option.some_inj.mp hsame ▸ h⟩
  choose answers after h using hlearns
  refine ⟨answers, after, fun path hpath ↦ ?_, ?_⟩
  · rw [← Table.contains_iff] at hpath
    obtain ⟨file, hfile⟩ := Option.isSome_iff_exists.mp hpath
    exact (h path file hfile).1
  · exact Table.eq_map_of_get? (keys_of_run_compile hrun) fun path file hfile ↦
      (h path file hfile).2

/-! ## What a request leaves and returns -/

/-- The code is the first of the emitted files without its placeholders, or nothing. -/
def IsCodeOf (emitted : List EmittedFile) (code : Text) : Prop :=
  match emitted with
  | [] => code = []
  | first :: _ => Text.Removed placeholder first.text code

theorem isCodeOf_emittedCode (emitted : List EmittedFile) :
    IsCodeOf emitted (emittedCode emitted) := by
  cases emitted with
  | nil => rfl
  | cons first rest => exact removed_placeholder_iff.mpr rfl

theorem get?_files_run_compile_of_notMem {key : Text}
    (h : key ∉ files.keys.map Path.normalize) :
    (run (compile checker fs files) c).2.workspace.overlay.files.get? key =
      c.workspace.overlay.files.get? key := by
  rw [overlay_run_compile]
  apply Overlay.get?_files_writeAll_of_forall_ne
  rintro e he rfl
  obtain ⟨entry, hentry, rfl⟩ := List.mem_map.mp he
  exact h (List.mem_map_of_mem (List.mem_map_of_mem hentry))

theorem scripts_run_compile :
    (run (compile checker fs files) c).2.workspace.scripts = files.keys.map Path.normalize := by
  rw [(agrees_run_compile checker fs files c).scripts, prepare_eq]

/-- Whether a request succeeds or fails, its files are the files to check, and the overlay has lost
no entry and changed none that is not a file of the request. When it succeeds, each file has the
answers about it as its result. It fails exactly when a call does that it comes to. -/
theorem compile_effect (checker : Checker σ) (fs : FileSystem) (files : FileSet)
    (c c' : Compiler σ) (outcome : Except MissingRedirect CompiledFiles)
    (hrun : run (compile checker fs files) c = (outcome, c')) :
    c'.workspace.scripts = files.keys.map Path.normalize ∧
    c.workspace.overlay.files.keys <+: c'.workspace.overlay.files.keys ∧
    (∀ key, key ∉ files.keys.map Path.normalize →
      c'.workspace.overlay.files.get? key = c.workspace.overlay.files.get? key) ∧
    (∀ compiled, outcome = .ok compiled → compiled.keys = files.keys ∧
      ∀ path file, files.get? path = some file → ∃ a after result,
        Learns checker fs files c path a after ∧ compiled.get? path = some result ∧
        result.path = path ∧ result.hidden = file.hidden ∧ IsCodeOf a.emitted result.code ∧
        result.diagnostics = a.diagnostics.map (·.placed (after.workspace.text? fs))) ∧
    (∀ e, outcome = .error e ↔ ∃ path start after, Reaches checker fs files c path start ∧
      CallFails checker fs path start e after) := by
  have hscripts : (run (compile checker fs files) c).2.workspace.scripts =
      files.keys.map Path.normalize := scripts_run_compile
  have hkeys : c.workspace.overlay.files.keys <+:
      (run (compile checker fs files) c).2.workspace.overlay.files.keys := by
    rw [overlay_run_compile]
    exact Overlay.keys_prefix_keys_writeAll _ _
  have hothers : ∀ key, key ∉ files.keys.map Path.normalize →
      (run (compile checker fs files) c).2.workspace.overlay.files.get? key =
        c.workspace.overlay.files.get? key := fun _ ↦ get?_files_run_compile_of_notMem
  rw [hrun] at hscripts hkeys hothers
  refine ⟨hscripts, hkeys, hothers, ?_, fun e ↦ ⟨?_, ?_⟩⟩
  · rintro compiled rfl
    refine ⟨keys_of_run_compile hrun, fun path file hfile ↦ ?_⟩
    obtain ⟨a, after, hlearns, hresult⟩ := exists_learns hrun hfile
    exact ⟨a, after, _, hlearns, hresult, rfl, rfl, isCodeOf_emittedCode a.emitted, rfl⟩
  · rintro rfl
    obtain ⟨path, start, hreaches, hfails⟩ := run_compile_eq_error_iff.mp hrun
    exact ⟨path, start, c', hreaches, hfails⟩
  · rintro ⟨path, start, after, hreaches, hfails⟩
    have herror := run_compile_eq_error_iff.mpr ⟨path, start, hreaches, hfails⟩
    exact (Prod.mk.inj (hrun.symm.trans herror)).1

/-- The first file of the request imports a module that is redirected to nothing. -/
theorem compile_effect_of_missing_redirect :
    ∃ c', run (compile lineChecker .empty (FileSet.ofBlock ['d'] defaultFileName
        "// file: a.ts\nimport { f } from 'lib'\n// file: ./b.ts\nx".toList))
      ⟨(Workspace.new .empty (Resolver.ofOptions .empty) (Table.ofList
        [("lib".toList, ⟨"/gone".toList, ⟨"lib".toList, [], ['1']⟩⟩)])).write "e/c.ts".toList ['y'],
        LineChecker.State.empty⟩ = (.error ⟨"lib".toList, "/gone".toList⟩, c') ∧
      c'.workspace.scripts = ["d/a.ts".toList, "d/b.ts".toList] ∧
      c'.workspace.overlay.files.get? "e/c.ts".toList = some ⟨['y'], 1⟩ ∧
      ∃ path start after, CallFails lineChecker .empty path start
        ⟨"lib".toList, "/gone".toList⟩ after := by
  let files := FileSet.ofBlock ['d'] defaultFileName
    "// file: a.ts\nimport { f } from 'lib'\n// file: ./b.ts\nx".toList
  let c : Compiler LineChecker.State :=
    ⟨(Workspace.new .empty (Resolver.ofOptions .empty) (Table.ofList
      [("lib".toList, ⟨"/gone".toList, ⟨"lib".toList, [], ['1']⟩⟩)])).write "e/c.ts".toList ['y'],
      LineChecker.State.empty⟩
  have hrun : run (compile lineChecker .empty files) c =
      (.error ⟨"lib".toList, "/gone".toList⟩, (run (compile lineChecker .empty files) c).2) :=
    run_eq_of_fst_eq (by decide +kernel)
  obtain ⟨hscripts, -, hothers, -, herror⟩ := compile_effect lineChecker .empty files c _ _ hrun
  obtain ⟨path, start, after, -, hfails⟩ := (herror _).mp rfl
  have hkeys : files.keys.map Path.normalize = ["d/a.ts".toList, "d/b.ts".toList] := by decide
  refine ⟨_, hrun, hscripts.trans hkeys, ?_, path, start, after, hfails⟩
  exact (hothers _ (by rw [hkeys]; decide)).trans (by decide)

end Compiler

end FencedCode
