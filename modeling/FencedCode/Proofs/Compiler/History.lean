import FencedCode.Proofs.Checker.Line

/-!
# Requests after other requests

A compiler with the line checker lives through many requests. What it keeps of them is sound after
each, whether the request succeeds or fails. So a request for files that import nothing comes to
the same whatever was requested before: it depends on the options and on the files themselves.
-/

namespace FencedCode

open Compiler

namespace LineChecker

variable (fs : FileSystem) {c : Compiler State} {key text : Text}

/-! ## One file -/

/-- What the checker says about a file, with the given diagnostics of its types. -/
def findings (options : CompilerOptions) (key text : Text) (ofTypes : List RawDiagnostic) :
    Findings :=
  ⟨[⟨emittedName key, LineSyntax.emitted text⟩],
    optionFindings options ++ parenthesisFindings key text ++ ofTypes⟩

theorem run_call_emit (htext : c.workspace.overlay.text? key = some text) :
    run (call fs (lineChecker.emit key)) c =
      (.ok [⟨emittedName key, LineSyntax.emitted text⟩], c) := by
  show run (call fs (emit key)) c = _
  rw [emit, call_bind, run_bind, run_call_read, Workspace.read_of_text? htext]
  rfl

theorem run_check (htext : c.workspace.overlay.text? key = some text) :
    run (check lineChecker fs key) c = run (do
      let ofTypes ← call fs (typeDiagnostics key)
      return findings c.workspace.options key text ofTypes) c := by
  have hoptions : run (call fs lineChecker.optionDiagnostics) c =
      (.ok (optionFindings c.workspace.options), c) := by
    show run (call fs optionDiagnostics) c = _
    rw [optionDiagnostics, call_bind, run_bind, run_call_options]
    rfl
  have hparens : run (call fs (lineChecker.syntaxDiagnostics key)) c =
      (.ok (parenthesisFindings key text), c) := by
    show run (call fs (syntaxDiagnostics key)) c = _
    rw [syntaxDiagnostics, call_bind, run_bind, run_call_read, Workspace.read_of_text? htext]
    rfl
  rw [check, run_bind, run_call_emit fs htext]
  dsimp only
  rw [run_bind, hoptions]
  dsimp only
  rw [run_bind, hparens]
  rfl

theorem run_check_of_ok {c' : Compiler State} {ofTypes : List RawDiagnostic}
    (htext : c.workspace.overlay.text? key = some text)
    (htypes : run (call fs (typeDiagnostics key)) c = (.ok ofTypes, c')) :
    run (check lineChecker fs key) c =
      (.ok (findings c.workspace.options key text ofTypes), c') := by
  rw [run_check fs htext, run_bind, htypes]
  rfl

/-- A diagnostic with its place in the only text that it can be about. -/
def placedIn (text : Text) (raw : RawDiagnostic) : Diagnostic :=
  match raw.file with
  | none => .unplaced raw
  | some _ => .ofRaw raw text

theorem placeAll_of_text? {w : Workspace} (htext : w.overlay.text? key = some text)
    {raws : List RawDiagnostic} (hraws : ∀ raw ∈ raws, raw.file = none ∨ raw.file = some key) :
    placeAll fs raws w = (raws.map (placedIn text), w) := by
  induction raws with
  | nil => rfl
  | cons raw rest ih =>
    obtain ⟨hfirst, hrest⟩ := List.forall_mem_cons.mp hraws
    have hplace : place fs raw w = (placedIn text raw, w) := by
      rcases hfirst with hfile | hfile
      · simp only [place, placedIn, hfile]
        rfl
      · simp only [place, placedIn, hfile, bind, StateT.bind, Workspace.read_of_text? htext]
        rfl
    show ((place fs raw w).1 :: (placeAll fs rest (place fs raw w).2).1,
      (placeAll fs rest (place fs raw w).2).2) = _
    rw [hplace, ih hrest, List.map_cons]

/-- What is found in a file that imports nothing is about this file, or about none. -/
theorem file_of_mem_findings {options : CompilerOptions} {raw : RawDiagnostic}
    (h : raw ∈ (findings options key text (ownDiagnostics key text)).diagnostics) :
    raw.file = none ∨ raw.file = some key := by
  rcases List.mem_append.mp h with h | hown
  · rcases List.mem_append.mp h with hoption | hparenthesis
    · obtain ⟨_, -, rfl⟩ := List.mem_map.mp hoption
      exact .inl rfl
    · right
      rcases List.mem_append.mp hparenthesis with hclosing | hopened
      · obtain ⟨_, -, rfl⟩ := List.mem_map.mp hclosing
        rfl
      · obtain ⟨_, -, rfl⟩ := List.mem_map.mp hopened
        rfl
  · exact .inr (file_of_mem_rowsDiagnostics hown)

/-- What a file that imports nothing is compiled to. -/
def compiledAlone (options : CompilerOptions) (key text : Text) (hidden : Bool) : CompiledFile :=
  ⟨key, emittedCode (findings options key text (ownDiagnostics key text)).emitted, hidden,
    (findings options key text (ownDiagnostics key text)).diagnostics.map (placedIn text)⟩

theorem run_compileFile_of_importFree (h : IsSound c)
    (htext : c.workspace.overlay.text? key = some text) (hfree : ImportFree text)
    (file : SourceFile) : ∃ c', run (compileFile lineChecker fs key file) c =
      (.ok (compiledAlone c.workspace.options key text file.hidden), c') := by
  have htypes := run_typeDiagnostics_of_importFree fs h htext hfree
  rcases hrun : run (call fs (typeDiagnostics key)) c with ⟨result, c'⟩
  rw [hrun] at htypes
  obtain rfl : result = .ok (ownDiagnostics key text) := htypes
  have hagrees := (onlyAsks_call fs _).of_run_eq hrun
  have hplaced : placeAll fs
      (findings c.workspace.options key text (ownDiagnostics key text)).diagnostics c'.workspace =
        (_, c'.workspace) :=
    placeAll_of_text? fs ((hagrees.text? key).trans htext) fun _ ↦ file_of_mem_findings
  refine ⟨c', run_bind_eq_ok_iff.mpr ⟨_, _, run_check_of_ok fs htext hrun,
    run_bind_eq_ok_iff.mpr ⟨_, c', ?_, rfl⟩⟩⟩
  exact run_inWorkspace_eq_ok_iff.mpr ⟨by rw [hplaced], by rw [hplaced]⟩

/-! ## A request -/

variable {entries : List (Text × SourceFile)}

/-- What the checker keeps is sound, and the overlay is the one of the request. -/
def SoundOver (o : Overlay) (c : Compiler State) : Prop := IsSound c ∧ c.workspace.overlay = o

variable {o : Overlay}

theorem preserves_check (htext : o.text? key = some text) :
    Preserves (SoundOver o) (check lineChecker fs key) := by
  have htypes : Preserves (SoundOver o) (call fs (typeDiagnostics key)) := by
    rintro c ⟨hsound, rfl⟩
    exact ⟨isSound_run_typeDiagnostics fs hsound htext, (onlyAsks_call fs _ c).overlay⟩
  rintro c ⟨hsound, rfl⟩
  rw [run_check fs htext]
  exact htypes.bind (fun _ ↦ Preserves.pure _) c ⟨hsound, rfl⟩

theorem preserves_compileFile (htext : o.text? key = some text) (file : SourceFile) :
    Preserves (SoundOver o) (compileFile lineChecker fs key file) := by
  apply (preserves_check fs htext).bind
  intro findings
  have hplace : Preserves (SoundOver o)
      (inWorkspace (placeAll fs findings.diagnostics) : CompileM State _) := by
    rintro c ⟨hsound, rfl⟩
    have hoverlay := (onlyAsks_placeAll fs findings.diagnostics c.workspace).overlay
    exact ⟨hsound.of_eq hoverlay rfl, hoverlay⟩
  exact hplace.bind fun _ ↦ Preserves.pure _

theorem preserves_compileFiles (hwritten : ∀ e ∈ entries, ∃ text, o.text? e.1 = some text) :
    Preserves (SoundOver o) (compileFiles lineChecker fs entries) := by
  induction entries with
  | nil => exact Preserves.pure _
  | cons e rest ih =>
    obtain ⟨⟨text, htext⟩, hrest⟩ := List.forall_mem_cons.mp hwritten
    apply (preserves_compileFile fs htext e.2).bind
    exact fun _ ↦ (ih hrest).bind fun _ ↦ Preserves.pure _

/-- The results for files that import nothing, which have been written to the overlay. -/
def compiledIn (o : Overlay) (options : CompilerOptions) (entries : List (Text × SourceFile)) :
    List (Text × CompiledFile) :=
  entries.map fun e ↦ (e.1, compiledAlone options e.1 ((o.text? e.1).getD []) e.2.hidden)

theorem compiledIn_cons (o : Overlay) (options : CompilerOptions) (e : Text × SourceFile)
    (rest : List (Text × SourceFile)) : compiledIn o options (e :: rest) =
      (e.1, compiledAlone options e.1 ((o.text? e.1).getD []) e.2.hidden) ::
        compiledIn o options rest := rfl

theorem run_compileFiles_of_importFree (h : SoundOver o c)
    (hfree : ∀ e ∈ entries, ∃ text, o.text? e.1 = some text ∧ ImportFree text) :
    ∃ c', run (compileFiles lineChecker fs entries) c =
      (.ok (compiledIn o c.workspace.options entries), c') := by
  induction entries generalizing c with
  | nil => exact ⟨c, rfl⟩
  | cons e rest ih =>
    obtain ⟨⟨text, htext, hnone⟩, hrest⟩ := List.forall_mem_cons.mp hfree
    obtain ⟨middle, hrun⟩ :=
      run_compileFile_of_importFree fs h.1 (h.2.symm ▸ htext) hnone e.2
    have hmiddle := preserves_compileFile fs htext e.2 c h
    rw [hrun] at hmiddle
    obtain ⟨c', hothers⟩ := ih hmiddle hrest
    rw [((onlyAsks_compileFile lineChecker fs e.1 e.2).of_run_eq hrun).options] at hothers
    refine ⟨c', run_bind_eq_ok_iff.mpr ⟨_, middle, hrun,
      run_bind_eq_ok_iff.mpr ⟨_, c', hothers, ?_⟩⟩⟩
    rw [run_pure_eq_ok_iff, compiledIn_cons, htext, Option.getD_some]
    exact ⟨rfl, rfl⟩

theorem IsSound.prepare (h : IsSound c) (files : FileSet) :
    SoundOver (c.workspace.overlay.writeAll files.writes)
      ⟨prepare files c.workspace, c.state⟩ := by
  refine ⟨fun file analysis hkept ↦ ?_, overlay_prepare files c.workspace⟩
  obtain ⟨text, version, hold⟩ := h file analysis hkept
  have hnew := hold.writeAll files.writes
  rw [← overlay_prepare] at hnew
  exact ⟨text, version, hnew⟩

theorem isSound_run_compile (h : IsSound c) (files : FileSet) :
    IsSound (run (compile lineChecker fs files) c).2 := by
  have hwritten : ∀ e ∈ files.entries, ∃ text,
      (c.workspace.overlay.writeAll files.writes).text? e.1 = some text := by
    intro e he
    obtain ⟨file, -, htext⟩ := FileSet.exists_text?_writeAll he
    exact ⟨_, htext _⟩
  have hfiles := preserves_compileFiles fs hwritten
  rw [run_compile]
  exact (hfiles.bind (fun _ ↦ Preserves.pure _) _ (h.prepare files)).1

/-- What a request for files that import nothing comes to. -/
def compiledFiles (options : CompilerOptions) (files : FileSet) : CompiledFiles :=
  Table.ofList (compiledIn (Overlay.empty.writeAll files.writes) options files.entries)

/-- A request for files that import nothing succeeds, and what it comes to depends on the options
and on the files alone. -/
theorem run_compile_of_importFree (h : IsSound c) {files : FileSet}
    (hfree : ∀ file ∈ files.values, ImportFree (fillEmptyLines file.code)) :
    (run (compile lineChecker fs files) c).1 = .ok (compiledFiles c.workspace.options files) := by
  have htexts : ∀ e ∈ files.entries, ∃ text,
      (c.workspace.overlay.writeAll files.writes).text? e.1 = some text ∧ ImportFree text := by
    intro e he
    obtain ⟨file, hfile, htext⟩ := FileSet.exists_text?_writeAll he
    exact ⟨_, htext _, hfree file hfile⟩
  obtain ⟨c', hrun⟩ := run_compileFiles_of_importFree fs (h.prepare files) htexts
  have hsame (options : CompilerOptions) :
      compiledIn (c.workspace.overlay.writeAll files.writes) options files.entries =
        compiledIn (Overlay.empty.writeAll files.writes) options files.entries := by
    refine List.map_congr_left fun e he ↦ ?_
    obtain ⟨file, -, htext⟩ := FileSet.exists_text?_writeAll he
    rw [htext, htext]
  rw [run_compile, run_bind, hrun, hsame, prepare_eq]
  rfl

/-! ## Many requests -/

/-- The compiler after requests, of which each finds a disk of its own. -/
def afterRequests (history : List (FileSystem × FileSet)) (c : Compiler State) : Compiler State :=
  history.foldl (fun c (fs, files) ↦ (run (compile lineChecker fs files) c).2) c

theorem isSound_afterRequests (history : List (FileSystem × FileSet)) (h : IsSound c) :
    IsSound (afterRequests history c) := by
  induction history generalizing c with
  | nil => exact h
  | cons request rest ih => exact ih (isSound_run_compile request.1 h request.2)

theorem options_afterRequests (history : List (FileSystem × FileSet)) (c : Compiler State) :
    (afterRequests history c).workspace.options = c.workspace.options := by
  induction history generalizing c with
  | nil => rfl
  | cons request rest ih =>
    obtain ⟨fs, files⟩ := request
    have hagrees := agrees_run_compile lineChecker fs files c
    rw [prepare_eq] at hagrees
    exact (ih _).trans hagrees.options

/-- A request for files that import nothing comes to the same after any requests as on a new
compiler. -/
theorem compile_after_requests (options : CompilerOptions) (resolver : Resolver)
    (redirects : Redirects) (history : List (FileSystem × FileSet)) (fs : FileSystem)
    (files : FileSet) (hfree : ∀ file ∈ files.values, ImportFree (fillEmptyLines file.code)) :
    ∃ compiled,
      (run (compile lineChecker fs files) (afterRequests history
        ⟨Workspace.new options resolver redirects, State.empty⟩)).1 = .ok compiled ∧
      (run (compile lineChecker fs files)
        ⟨Workspace.new options resolver redirects, State.empty⟩).1 = .ok compiled := by
  have hnew := isSound_new (Workspace.new options resolver redirects)
  refine ⟨compiledFiles options files, ?_, run_compile_of_importFree fs hnew hfree⟩
  rw [run_compile_of_importFree fs (isSound_afterRequests history hnew) hfree,
    options_afterRequests]
  rfl

/-- The first of the earlier requests fails, the second leaves an analysis of the same file, and the
last request has two spellings of its name. -/
theorem compile_after_aborted_request :
    (∀ file ∈ (FileSet.ofBlock ['d'] defaultFileName
        "// file: ./a.ts\nlet x: string = 1\n// file: a.ts\nlet y: string = 2".toList).values,
      ImportFree (fillEmptyLines file.code)) ∧
    (run (compile lineChecker .empty
        (FileSet.ofBlock ['d'] defaultFileName "// file: a.ts\nimport { f } from 'lib'".toList))
      ⟨Workspace.new .empty (Resolver.ofOptions .empty)
        (Table.ofList [("lib".toList, ⟨"/gone".toList, ⟨"lib".toList, [], ['1']⟩⟩)]),
        State.empty⟩).1 = .error ⟨"lib".toList, "/gone".toList⟩ ∧
    ∃ compiled,
      (run (compile lineChecker .empty (FileSet.ofBlock ['d'] defaultFileName
          "// file: ./a.ts\nlet x: string = 1\n// file: a.ts\nlet y: string = 2".toList))
        (afterRequests
          [(.empty, FileSet.ofBlock ['d'] defaultFileName
            "// file: a.ts\nimport { f } from 'lib'".toList),
          (.empty, FileSet.ofBlock ['d'] defaultFileName
            "// file: a.ts\nlet y: string = 2".toList)]
          ⟨Workspace.new .empty (Resolver.ofOptions .empty)
            (Table.ofList [("lib".toList, ⟨"/gone".toList, ⟨"lib".toList, [], ['1']⟩⟩)]),
            State.empty⟩)).1 = .ok compiled ∧
      (run (compile lineChecker .empty (FileSet.ofBlock ['d'] defaultFileName
          "// file: ./a.ts\nlet x: string = 1\n// file: a.ts\nlet y: string = 2".toList))
        ⟨Workspace.new .empty (Resolver.ofOptions .empty)
          (Table.ofList [("lib".toList, ⟨"/gone".toList, ⟨"lib".toList, [], ['1']⟩⟩)]),
          State.empty⟩).1 = .ok compiled :=
  ⟨by decide, rfl,
    compile_after_requests .empty (Resolver.ofOptions .empty) _ _ .empty _ (by decide)⟩

end LineChecker

end FencedCode
