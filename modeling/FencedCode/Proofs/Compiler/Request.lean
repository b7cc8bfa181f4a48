import FencedCode.Proofs.Compiler.Step
import FencedCode.Proofs.Table

/-!
# Requests to a compiler

A request goes through its files in order and ends with the first call that fails. Read backwards,
a request that succeeds is a chain of states, in which every file has its findings. The overlay is
written once, before the first call, so every call of the request sees the code of every file.
-/

namespace FencedCode

namespace Compiler

variable {σ : Type}

theorem onlyAsks_place (fs : FileSystem) (raw : RawDiagnostic) :
    Workspace.OnlyAsks (place fs raw) := by
  unfold place
  split
  · exact Workspace.OnlyAsks.pure _
  · apply (Workspace.onlyAsks_read fs _).bind
    intro text
    split
    · exact Workspace.OnlyAsks.pure _
    · exact Workspace.OnlyAsks.pure _

theorem onlyAsks_placeAll (fs : FileSystem) (raws : List RawDiagnostic) :
    Workspace.OnlyAsks (placeAll fs raws) := by
  induction raws with
  | nil => exact Workspace.OnlyAsks.pure _
  | cons raw rest ih =>
    exact (onlyAsks_place fs raw).bind fun _ ↦ ih.bind fun _ ↦ Workspace.OnlyAsks.pure _

variable (checker : Checker σ) (fs : FileSystem)

theorem onlyAsks_check (key : Text) : OnlyAsks (check checker fs key) := by
  apply (onlyAsks_call fs (checker.emit key)).bind
  intro _
  apply (onlyAsks_call fs checker.optionDiagnostics).bind
  intro _
  apply (onlyAsks_call fs (checker.syntaxDiagnostics key)).bind
  intro _
  apply (onlyAsks_call fs (checker.typeDiagnostics key)).bind
  exact fun _ ↦ OnlyAsks.pure _

theorem onlyAsks_compileFile (key : Text) (file : SourceFile) :
    OnlyAsks (compileFile checker fs key file) := by
  apply (onlyAsks_check checker fs key).bind
  intro findings
  apply (onlyAsks_inWorkspace (onlyAsks_placeAll fs findings.diagnostics)).bind
  exact fun _ ↦ OnlyAsks.pure _

theorem onlyAsks_compileFiles (entries : List (Text × SourceFile)) :
    OnlyAsks (compileFiles checker fs entries) := by
  induction entries with
  | nil => exact OnlyAsks.pure _
  | cons e rest ih =>
    exact (onlyAsks_compileFile checker fs e.1 e.2).bind fun _ ↦ ih.bind fun _ ↦ OnlyAsks.pure _

/-- The files of a request can be compiled in two parts. -/
theorem compileFiles_append (entries others : List (Text × SourceFile)) :
    compileFiles checker fs (entries ++ others) = (do
      let first ← compileFiles checker fs entries
      let second ← compileFiles checker fs others
      return first ++ second) := by
  induction entries with
  | nil => simp [compileFiles]
  | cons e rest ih => simp [compileFiles, ih]

theorem run_compileFiles_append_cons {earlier later : List (Text × SourceFile)} {key : Text}
    {file : SourceFile} {results : List (Text × CompiledFile)} {c c' : Compiler σ}
    (h : run (compileFiles checker fs (earlier ++ (key, file) :: later)) c = (.ok results, c')) :
    ∃ done middle result after rest,
      run (compileFiles checker fs earlier) c = (.ok done, middle) ∧
      run (compileFile checker fs key file) middle = (.ok result, after) ∧
      run (compileFiles checker fs later) after = (.ok rest, c') ∧
      results = done ++ (key, result) :: rest := by
  rw [compileFiles_append, run_bind_eq_ok_iff] at h
  obtain ⟨done, middle, hdone, h⟩ := h
  rw [run_bind_eq_ok_iff] at h
  obtain ⟨others, _, hothers, h⟩ := h
  obtain ⟨rfl, rfl⟩ := run_pure_eq_ok_iff.mp h
  rw [compileFiles, run_bind_eq_ok_iff] at hothers
  obtain ⟨result, after, hresult, hothers⟩ := hothers
  rw [run_bind_eq_ok_iff] at hothers
  obtain ⟨rest, _, hrest, hothers⟩ := hothers
  obtain ⟨rfl, rfl⟩ := run_pure_eq_ok_iff.mp hothers
  exact ⟨done, middle, result, after, rest, hdone, hresult, hrest, rfl⟩

/-- The results have the keys of the files in their order. -/
theorem map_fst_of_run_compileFiles {entries : List (Text × SourceFile)}
    {results : List (Text × CompiledFile)} {c c' : Compiler σ}
    (h : run (compileFiles checker fs entries) c = (.ok results, c')) :
    results.map Prod.fst = entries.map Prod.fst := by
  induction entries generalizing c results with
  | nil =>
    rw [compileFiles] at h
    obtain ⟨rfl, -⟩ := run_pure_eq_ok_iff.mp h
    rfl
  | cons e rest ih =>
    rw [← List.nil_append (e :: rest)] at h
    obtain ⟨done, _, result, after, others, hdone, -, hothers, rfl⟩ :=
      run_compileFiles_append_cons checker fs h
    rw [compileFiles] at hdone
    obtain ⟨rfl, -⟩ := run_pure_eq_ok_iff.mp hdone
    rw [List.nil_append, List.map_cons, ih hothers, List.map_cons]

theorem run_compileFile_eq_ok {key : Text} {file : SourceFile} {result : CompiledFile}
    {c c' : Compiler σ} (h : run (compileFile checker fs key file) c = (.ok result, c')) :
    ∃ findings middle, run (check checker fs key) c = (.ok findings, middle) ∧
      result = ⟨key, emittedCode findings.emitted, file.hidden,
        (placeAll fs findings.diagnostics middle.workspace).1⟩ := by
  rw [compileFile, run_bind_eq_ok_iff] at h
  obtain ⟨findings, middle, hfindings, h⟩ := h
  rw [run_bind_eq_ok_iff] at h
  obtain ⟨diagnostics, _, hdiagnostics, h⟩ := h
  obtain ⟨rfl, -⟩ := run_inWorkspace_eq_ok_iff.mp hdiagnostics
  obtain ⟨rfl, -⟩ := run_pure_eq_ok_iff.mp h
  exact ⟨findings, middle, hfindings, rfl⟩

/-- A diagnostic of a written file is placed in the text that was written. -/
theorem ofRaw_mem_placeAll {raw : RawDiagnostic} {raws : List RawDiagnostic} (hraw : raw ∈ raws)
    {path : Text} (hfile : raw.file = some path) {w : Workspace} {written : OverlayFile}
    (hwritten : w.overlay.get? path = some written) :
    Diagnostic.ofRaw raw written.text ∈ (placeAll fs raws w).1 := by
  induction raws generalizing w with
  | nil => exact absurd hraw List.not_mem_nil
  | cons first rest ih =>
    show _ ∈ (place fs first w).1 :: (placeAll fs rest (place fs first w).2).1
    rcases List.mem_cons.mp hraw with rfl | hrest
    · have hread : Workspace.read fs path w = (some written.text, w) := by
        rw [Workspace.read, hwritten]
      have hplace : (place fs raw w).1 = Diagnostic.ofRaw raw written.text := by
        simp only [place, hfile, bind, StateT.bind, hread]
        rfl
      rw [hplace]
      exact List.mem_cons_self
    · apply List.mem_cons_of_mem
      apply ih hrest
      rw [(onlyAsks_place fs first w).overlay, hwritten]

theorem get?_foldl_write {path : Text} {entries : List (Text × SourceFile)}
    (h : Path.normalize path ∉ entries.map fun e ↦ Path.normalize e.1) (w : Workspace) :
    (entries.foldl (fun w (key, file) ↦ w.write key (fillEmptyLines file.code)) w).overlay.get?
      path = w.overlay.get? path := by
  induction entries generalizing w with
  | nil => rfl
  | cons e rest ih =>
    have hne : Path.normalize path ≠ Path.normalize e.1 := List.ne_of_not_mem_cons h
    rw [List.foldl_cons, ih (List.not_mem_of_not_mem_cons h)]
    exact (w.overlay.get?_write _ _ _).trans (if_neg (Ne.symm hne))

/-- When the names of a request mean different files, each file is written with its own code. -/
theorem exists_get?_prepare {files : FileSet} {path : Text} {file : SourceFile}
    (hpaths : (files.keys.map Path.normalize).Nodup) (hfile : files.get? path = some file)
    (w : Workspace) :
    ∃ written, (prepare files w).overlay.get? path = some written ∧
      written.text = fillEmptyLines file.code := by
  obtain ⟨before, after, hsplit⟩ := List.append_of_mem (Table.get?_eq_some_iff.mp hfile)
  have hlast : Path.normalize path ∉ after.map fun e ↦ Path.normalize e.1 := by
    rw [Table.keys, hsplit, List.map_map, List.map_append, List.map_cons,
      List.nodup_append] at hpaths
    exact (List.nodup_cons.mp hpaths.2.1).1
  let start := before.foldl (fun w (key, file) ↦ w.write key (fillEmptyLines file.code))
    (w.setScripts [])
  refine ⟨Overlay.updated (start.overlay.get? path) (fillEmptyLines file.code), ?_, by simp⟩
  show (files.entries.foldl _ (w.setScripts [])).overlay.get? path = _
  rw [hsplit, List.foldl_append, List.foldl_cons, get?_foldl_write hlast]
  exact (start.overlay.get?_write _ _ _).trans (if_pos rfl)

/-- During the request the checker reports the diagnostic when it goes through the file. -/
def Reports (files : FileSet) (c : Compiler σ) (path : Text) (raw : RawDiagnostic) : Prop :=
  ∃ earlier file later done middle findings after,
    files.entries = earlier ++ (path, file) :: later ∧
    run (compileFiles checker fs earlier) { c with workspace := prepare files c.workspace } =
      (.ok done, middle) ∧
    run (check checker fs path) middle = (.ok findings, after) ∧ raw ∈ findings.diagnostics

theorem run_compile_eq_ok_iff {files : FileSet} {compiled : CompiledFiles} {c c' : Compiler σ} :
    run (compile checker fs files) c = (.ok compiled, c') ↔
      ∃ results, run (compileFiles checker fs files.entries)
        { c with workspace := prepare files c.workspace } = (.ok results, c') ∧
          Table.ofList results = compiled := by
  have hprepare : run (modify fun c : Compiler σ ↦
      { c with workspace := prepare files c.workspace }) c =
        (.ok ⟨⟩, { c with workspace := prepare files c.workspace }) := rfl
  rw [compile, run_bind, hprepare]
  simp only [run_bind_eq_ok_iff, run_pure_eq_ok_iff]
  constructor
  · rintro ⟨results, _, hresults, rfl, rfl⟩
    exact ⟨results, hresults, rfl⟩
  · rintro ⟨results, hresults, rfl⟩
    exact ⟨results, c', hresults, rfl, rfl⟩

/-- What is reported of a file in that file stands among the diagnostics of its result, placed in
the code with its empty lines filled. -/
theorem exists_mem_entries_of_reports {files : FileSet} {compiled : CompiledFiles}
    {c c' : Compiler σ} {path : Text} {raw : RawDiagnostic}
    (hpaths : (files.keys.map Path.normalize).Nodup)
    (hrun : run (compile checker fs files) c = (.ok compiled, c'))
    (hraw : Reports checker fs files c path raw) (hfile : raw.file = some path) :
    ∃ file result, files.get? path = some file ∧ (path, result) ∈ compiled.entries ∧
      Diagnostic.ofRaw raw (fillEmptyLines file.code) ∈ result.diagnostics := by
  obtain ⟨earlier, file, later, done, middle, findings, after, hsplit, hdone, hcheck, hmem⟩ := hraw
  obtain ⟨results, hresults, rfl⟩ := (run_compile_eq_ok_iff checker fs).mp hrun
  have hkeys := map_fst_of_run_compileFiles checker fs hresults
  have hget : files.get? path = some file := by
    rw [Table.get?_eq_some_iff, hsplit]
    simp
  obtain ⟨written, hwritten, htext⟩ := exists_get?_prepare hpaths hget c.workspace
  -- A step has one outcome, so the request comes to the state in which the file was reported on.
  rw [hsplit] at hresults
  obtain ⟨done', middle', result, _, rest, hdone', hresult, -, hsplit'⟩ :=
    run_compileFiles_append_cons checker fs hresults
  obtain ⟨-, rfl⟩ := Prod.mk.inj (hdone.symm.trans hdone')
  obtain ⟨findings', middle', hcheck', hdiagnostics⟩ := run_compileFile_eq_ok checker fs hresult
  obtain ⟨hfindings, rfl⟩ := Prod.mk.inj (hcheck.symm.trans hcheck')
  obtain rfl := Except.ok.inj hfindings
  refine ⟨file, result, hget, ?_, ?_⟩
  · rw [Table.entries_ofList (by rw [hkeys]; exact files.nodup_keys), hsplit']
    simp
  · have hagrees := ((onlyAsks_compileFiles checker fs earlier).of_run_eq hdone).trans
      ((onlyAsks_check checker fs path).of_run_eq hcheck)
    rw [hdiagnostics, ← htext]
    apply ofRaw_mem_placeAll fs hmem hfile
    rw [hagrees.overlay, hwritten]

variable {checker fs}

/-- A request does not fail when no call of the checker does. -/
theorem succeeds_compileFiles (hcheck : ∀ key, Succeeds (check checker fs key))
    (entries : List (Text × SourceFile)) : Succeeds (compileFiles checker fs entries) := by
  induction entries with
  | nil => exact Succeeds.pure _
  | cons e rest ih =>
    have hfile : Succeeds (compileFile checker fs e.1 e.2) := by
      apply (hcheck e.1).bind
      intro findings
      exact (succeeds_inWorkspace _).bind fun _ ↦ Succeeds.pure _
    exact hfile.bind fun _ ↦ ih.bind fun _ ↦ Succeeds.pure _

theorem succeeds_compile (hcheck : ∀ key, Succeeds (check checker fs key)) (files : FileSet) :
    Succeeds (compile checker fs files) := by
  intro c
  obtain ⟨results, c', hresults⟩ := succeeds_compileFiles hcheck files.entries
    { c with workspace := prepare files c.workspace }
  exact ⟨_, c', (run_compile_eq_ok_iff checker fs).mpr ⟨results, hresults, rfl⟩⟩

/-- A checker that emits nothing and reports the same of every file. -/
def steadyChecker (raws : List RawDiagnostic) : Checker Unit where
  emit _ := pure []
  optionDiagnostics := pure []
  syntaxDiagnostics _ := pure []
  typeDiagnostics _ := pure raws

theorem run_check_steadyChecker (fs : FileSystem) (raws : List RawDiagnostic) (key : Text)
    (c : Compiler Unit) :
    run (check (steadyChecker raws) fs key) c = (.ok ⟨[], raws⟩, c) := rfl

theorem succeeds_check_steadyChecker (fs : FileSystem) (raws : List RawDiagnostic) (key : Text) :
    Succeeds (check (steadyChecker raws) fs key) := fun c ↦
  ⟨_, c, run_check_steadyChecker fs raws key c⟩

theorem reports_steadyChecker {raws : List RawDiagnostic} {raw : RawDiagnostic} (hraw : raw ∈ raws)
    {files : FileSet} {path : Text} (hpath : path ∈ files.keys) (fs : FileSystem)
    (c : Compiler Unit) : Reports (steadyChecker raws) fs files c path raw := by
  obtain ⟨e, he, rfl⟩ := List.mem_map.mp hpath
  obtain ⟨earlier, later, hsplit⟩ := List.append_of_mem he
  obtain ⟨done, middle, hdone⟩ := succeeds_compileFiles (succeeds_check_steadyChecker fs raws)
    earlier { c with workspace := prepare files c.workspace }
  exact ⟨earlier, e.2, later, done, middle, _, _, hsplit, hdone,
    run_check_steadyChecker fs raws e.1 middle, hraw⟩

end Compiler

end FencedCode
