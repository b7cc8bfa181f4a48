import FencedCode.Proofs.Checker.Provenance

/-!
# Diagnostics that are kept too long

The line checker takes an analysis again while the versions stay that it has noted, and it notes
versions of found files only. So an import that was missing stays missing for the checker when its
file is written, as long as nothing else changes. What it reports of a file is always what a new
checker would have reported at the moment of the analysis, and what a new checker would report now
when each import still stands for the same file.
-/

namespace FencedCode.LineChecker

open Compiler Workspace

variable {fs : FileSystem} {c start start₀ : Compiler State} {path text : Text} {a : Analysis}

/-- What a checker that keeps nothing says about the types of a file. -/
def freshTypes (fs : FileSystem) (w : Workspace) (path : Text) :
    Except MissingRedirect (List RawDiagnostic) :=
  (run (call fs (typeDiagnostics path)) ⟨w, State.empty⟩).1

theorem run_renew_of_relativeImports (fs : FileSystem)
    (htext : c.workspace.overlay.text? path = some text)
    (hrelative : RelativeImports c.workspace.redirects text) :
    (run (call fs (typeDiagnostics.renew path)) c).1 =
      .ok (diagnosticsOf fs c.workspace path text) := by
  obtain ⟨w', hrun, -⟩ := run_analyze fs htext hrelative
  rw [run_renew, hrun]
  rfl

theorem freshTypes_eq (fs : FileSystem) {w : Workspace} (htext : w.overlay.text? path = some text)
    (hrelative : RelativeImports w.redirects text) :
    freshTypes fs w path = .ok (diagnosticsOf fs w path text) := by
  rcases run_call_typeDiagnostics fs path ⟨w, State.empty⟩ with ⟨_, hkept, -⟩ | hrun
  · cases hkept
  · rw [freshTypes, hrun]
    exact run_renew_of_relativeImports fs htext hrelative

/-! ## An analysis of an earlier moment -/

namespace MadeAt

variable {w : Workspace} {i : Nat × LineSyntax.ImportLine}

theorem growsTo_start (h : MadeAt fs path a start w) : start.workspace.GrowsTo w :=
  (along_call fs (lastsWhileAsking_growsTo fs) (analyze path) start).trans h.growsTo

/-- An analysis notes the version of its file. -/
theorem version_mem (h : MadeAt fs path a start w)
    (htext : start.workspace.overlay.text? path = some text) :
    (path, start.workspace.version fs path) ∈ a.versions := by
  have hmade := run_eq_of_fst_eq h.analyzed
  rw [run_call_analyze htext, call_bind, run_bind_eq_ok_iff] at hmade
  obtain ⟨imported, _, himports, hconcluded⟩ := hmade
  obtain ⟨rfl, -⟩ := run_pure_eq_ok_iff.mp hconcluded
  rw [version_of_isVirtual (isVirtual_of_text? htext)]
  exact versions_subset_of_run_addImports himports List.mem_cons_self

theorem eq_concluded (h : MadeAt fs path a start w)
    (htext : start.workspace.overlay.text? path = some text)
    (hrelative : RelativeImports start.workspace.redirects text) :
    a = concluded path text (seen fs start.workspace path text) := by
  obtain ⟨w', hrun, -⟩ := run_analyze fs htext hrelative
  have hmade := h.analyzed
  rw [hrun] at hmade
  exact (Except.ok.inj hmade).symm

theorem exists_adds (h : MadeAt fs path a start w)
    (htext : start.workspace.overlay.text? path = some text) :
    ∃ imported absent, a = concluded path text imported ∧ Adds fs start.workspace path
      (imports text) (begun start.workspace.overlay path text) imported absent := by
  have hmade := run_eq_of_fst_eq h.analyzed
  rw [run_call_analyze htext, addImports_eq_foldlM, ← imports, call_bind,
    run_bind_eq_ok_iff] at hmade
  obtain ⟨imported, _, himports, hconcluded⟩ := hmade
  obtain ⟨rfl, -⟩ := run_pure_eq_ok_iff.mp hconcluded
  obtain ⟨absent, hadds⟩ :=
    exists_adds_of_run_foldlM (c := counted start) (isVirtual_of_text? htext) himports
  exact ⟨imported, absent, rfl, hadds⟩

/-- An analysis reports a plain import as missing when it stood for no file. -/
theorem missingModule_mem_iff (h : MadeAt fs path a start w)
    (htext : start.workspace.overlay.text? path = some text) (hi : i ∈ imports text)
    (hplain : IsPlain start.workspace.redirects i) :
    missingModule path i.1 i.2 ∈ a.diagnostics ↔
      start.workspace.targetOf fs path i.2.module = none := by
  obtain ⟨imported, absent, rfl, hadds⟩ := h.exists_adds htext
  exact hadds.missingModule_mem_iff rfl hi hplain

/-- An analysis notes the versions of the files that plain imports stood for. -/
theorem version_target_mem (h : MadeAt fs path a start w)
    (htext : start.workspace.overlay.text? path = some text) (hi : i ∈ imports text)
    (hplain : IsPlain start.workspace.redirects i) {target : Text}
    (htarget : start.workspace.targetOf fs path i.2.module = some target) :
    (target, start.workspace.version fs target) ∈ a.versions := by
  obtain ⟨imported, absent, rfl, hadds⟩ := h.exists_adds htext
  exact hadds.version_mem i hi hplain target htarget

/-- Texts that the analysis has read from disk are remembered. -/
theorem remembers (h : MadeAt fs path a start w)
    (htext : start.workspace.overlay.text? path = some text)
    (hrelative : RelativeImports start.workspace.redirects text) (hi : i ∈ imports text) :
    Remembers fs start.workspace path i.2.module w := by
  obtain ⟨w', hrun, hremembers⟩ := run_analyze fs htext hrelative
  have hgrows := h.growsTo
  rw [hrun] at hgrows
  exact fun target found htarget hdisk hfound ↦
    hgrows.reads _ _ (hremembers i hi target found htarget hdisk hfound)

/-- While the version of its file stays, the analysis is one of the same text. -/
theorem text?_eq (h : MadeAt fs path a start w) {old : Text}
    (hold : start.workspace.overlay.text? path = some old)
    (htext : w.overlay.text? path = some text) {fs' : FileSystem}
    (hcurrent : ∀ e ∈ a.versions, w.version fs' e.1 = e.2) :
    start.workspace.overlay.text? path = some text := by
  have hversion := hcurrent _ (h.version_mem hold)
  rw [← (h.growsTo_start.text?_eq (isVirtual_of_text? htext) hversion).2, htext]

/-- While the versions stay, a file that is found for an import again shows the text that it had. -/
theorem showsImportAlike (h : MadeAt fs path a start w)
    (htext : start.workspace.overlay.text? path = some text)
    (hrelative : RelativeImports start.workspace.redirects text) (hi : i ∈ imports text)
    {fs' : FileSystem} (hcurrent : ∀ e ∈ a.versions, w.version fs' e.1 = e.2)
    (htarget : w.targetOf fs' path i.2.module = start.workspace.targetOf fs path i.2.module)
    (hread : ∀ target, start.workspace.targetOf fs path i.2.module = some target →
      (start.workspace.text? fs target).isSome) :
    ShowsImportAlike fs fs' start.workspace w path i.2.module := by
  refine ⟨htarget, fun target hfound ↦ ?_⟩
  obtain ⟨found, hshown⟩ := Option.isSome_iff_exists.mp (hread target hfound)
  have hversion := hcurrent _ (h.version_target_mem htext hi (hrelative i hi) hfound)
  by_cases hvirtual : w.isVirtual target
  · obtain ⟨hthen, hsame⟩ := h.growsTo_start.text?_eq hvirtual hversion
    rw [isVirtual, Overlay.contains_eq_isSome_text?] at hthen
    obtain ⟨written, hwritten⟩ := Option.isSome_iff_exists.mp hthen
    rw [text?, read_of_text? (hsame.trans hwritten), text?, read_of_text? hwritten]
  · have hdisk : ¬ start.workspace.isVirtual target := fun hthen ↦
      hvirtual (h.growsTo_start.isVirtual hthen)
    rw [hshown]
    exact text?_of_cached hvirtual (h.remembers htext hrelative hi target found hfound hdisk hshown)
      fs'

end MadeAt

theorem exists_madeAt_of_run_renew {ds : List RawDiagnostic}
    (h : (run (call fs (typeDiagnostics.renew path)) start).1 = .ok ds) :
    ∃ a, MadeAt fs path a start (run (call fs (analyze path)) start).2.workspace ∧
      a.diagnostics = ds := by
  rw [run_renew] at h
  rcases hrun : run (call fs (analyze path)) start with ⟨e | a, d⟩
  · rw [hrun] at h
    cases h
  · rw [hrun] at h
    exact ⟨a, ⟨congrArg Prod.fst hrun, by rw [hrun]; exact GrowsTo.refl _⟩, Except.ok.inj h⟩

/-! ## A file of a request -/

theorem exists_text?_of_reaches {files : FileSet} (h : Reaches lineChecker fs files c path start) :
    ∃ text, start.workspace.overlay.text? path = some text := by
  have hoverlay := h.overlay
  obtain ⟨earlier, source, later, _, hsplit, -⟩ := h
  have hmem : (path, source) ∈ files.entries :=
    hsplit ▸ List.mem_append_right _ List.mem_cons_self
  obtain ⟨file, -, htext⟩ := FileSet.exists_text?_writeAll hmem
  exact ⟨_, hoverlay ▸ htext c.workspace.overlay⟩

theorem growsTo_afterRequests (history : List (FileSystem × FileSet)) (c : Compiler State) :
    c.workspace.GrowsTo (afterRequests history c).workspace := by
  induction history using List.reverseRecOn with
  | nil => exact GrowsTo.refl _
  | append_singleton history request ih =>
    rw [afterRequests_append_singleton]
    exact ih.trans (growsTo_compile lineChecker _ _ _)

theorem ComesTo.growsTo {history : List (FileSystem × FileSet)}
    (h : ComesTo history c path fs start) : c.workspace.GrowsTo start.workspace := by
  obtain ⟨before, files, later, -, hreaches⟩ := h
  exact (growsTo_afterRequests before c).trans hreaches.growsTo

/-- What the checker says about a file it says from an analysis of one moment of the history, which
is this one unless a kept analysis stands. A plain import is reported as missing when it stood for
no file at that moment, and files that plain imports stood for have the versions that they had then.
When all imports are plain, a new checker says the same at that moment. It says the same now when
each import stands for the file that it stood for then, and this file could be read. -/
theorem typeDiagnostics_after_requests (options : CompilerOptions) (resolver : Resolver)
    (redirects : Redirects) (history : List (FileSystem × FileSet)) (fs : FileSystem)
    (files : FileSet) (path text : Text) (start : Compiler State)
    (hreaches : Reaches lineChecker fs files
      (afterRequests history ⟨new options resolver redirects, State.empty⟩) path start)
    (htext : start.workspace.overlay.text? path = some text) :
    (RelativeImports redirects text →
      ∃ ds, (run (call fs (typeDiagnostics path)) start).1 = .ok ds) ∧
    ∀ ds, (run (call fs (typeDiagnostics path)) start).1 = .ok ds →
      (run (check lineChecker fs path) start).1 =
        .ok (findings start.workspace.options path text ds) ∧
      ∃ fs₀ start₀,
        ComesTo (history ++ [(fs, files)]) ⟨new options resolver redirects, State.empty⟩ path
          fs₀ start₀ ∧
        start₀.workspace.overlay.text? path = some text ∧
        (∀ i ∈ imports text, IsPlain redirects i →
          (missingModule path i.1 i.2 ∈ ds ↔
            start₀.workspace.targetOf fs₀ path i.2.module = none) ∧
          ∀ target, start₀.workspace.targetOf fs₀ path i.2.module = some target →
            start.workspace.version fs target = start₀.workspace.version fs₀ target) ∧
        (RelativeImports redirects text →
          freshTypes fs₀ start₀.workspace path = .ok ds ∧
          ((∀ i ∈ imports text, start.workspace.targetOf fs path i.2.module =
              start₀.workspace.targetOf fs₀ path i.2.module ∧
              ∀ target, start₀.workspace.targetOf fs₀ path i.2.module = some target →
                (start₀.workspace.text? fs₀ target).isSome) →
            freshTypes fs start.workspace path = .ok ds)) ∧
        ((∀ analysis, start.state.kept.get? path = some analysis →
            ∃ e ∈ analysis.versions, start.workspace.version fs e.1 ≠ e.2) →
          fs₀ = fs ∧ start₀ = start) := by
  have hnow : ComesTo (history ++ [(fs, files)]) ⟨new options resolver redirects, State.empty⟩
      path fs start := ⟨history, files, [], rfl, hreaches⟩
  have hredirects : start.workspace.redirects = redirects := hnow.growsTo.redirects
  have hfresh (hrelative : RelativeImports redirects text) :=
    freshTypes_eq fs htext (hredirects.symm ▸ hrelative)
  have hcheck : ∀ ds, (run (call fs (typeDiagnostics path)) start).1 = .ok ds →
      (run (check lineChecker fs path) start).1 =
        .ok (findings start.workspace.options path text ds) := by
    intro ds hds
    rw [run_check fs htext, run_bind, run_eq_of_fst_eq hds]
    rfl
  rcases run_call_typeDiagnostics fs path start with ⟨a, hkept, hcurrent, hrun⟩ | hrun
  · obtain ⟨fs₀, start₀, hcomes, hmade⟩ := kept_of_reaches rfl hreaches hkept
    obtain ⟨_, _, _, _, hreaches₀⟩ := id hcomes
    obtain ⟨old, hold⟩ := exists_text?_of_reaches hreaches₀
    have htext₀ := hmade.text?_eq hold htext hcurrent
    have hredirects₀ : start₀.workspace.redirects = redirects := hcomes.growsTo.redirects
    refine ⟨fun _ ↦ ⟨_, congrArg Prod.fst hrun⟩, fun ds hds ↦ ⟨hcheck ds hds, fs₀, start₀,
      hcomes.append _, htext₀, fun i hi hplain ↦ ?_, fun hrelative ↦ ?_, fun hstale ↦ ?_⟩⟩
    all_goals obtain rfl := Except.ok.inj ((congrArg Prod.fst hrun).symm.trans hds)
    · rw [← hredirects₀] at hplain
      exact ⟨hmade.missingModule_mem_iff htext₀ hi hplain, fun target htarget ↦
        hcurrent _ (hmade.version_target_mem htext₀ hi hplain htarget)⟩
    · rw [hfresh hrelative]
      rw [← hredirects₀] at hrelative
      rw [freshTypes_eq fs₀ htext₀ hrelative, hmade.eq_concluded htext₀ hrelative]
      refine ⟨rfl, fun hsame ↦ ?_⟩
      rw [diagnosticsOf_alike fun i hi ↦ hmade.showsImportAlike htext₀ hrelative hi hcurrent
        (hsame i hi).1 (hsame i hi).2]
      rfl
    · obtain ⟨e, he, hother⟩ := hstale a hkept
      exact absurd (hcurrent e he) hother
  · refine ⟨fun hrelative ↦ ⟨_, (congrArg Prod.fst hrun).trans
      (run_renew_of_relativeImports fs htext (hredirects.symm ▸ hrelative))⟩,
      fun ds hds ↦ ⟨hcheck ds hds, fs, start, hnow, htext, fun i hi hplain ↦ ⟨?_, fun _ _ ↦ rfl⟩,
        fun hrelative ↦ ?_, fun _ ↦ ⟨rfl, rfl⟩⟩⟩
    · obtain ⟨a, hmade, rfl⟩ := exists_madeAt_of_run_renew (hrun ▸ hds)
      exact hmade.missingModule_mem_iff htext hi (hredirects.symm ▸ hplain)
    · have hfound : freshTypes fs start.workspace path = .ok ds := by
        rw [hfresh hrelative, ← hds, hrun]
        exact (run_renew_of_relativeImports fs htext (hredirects.symm ▸ hrelative)).symm
      exact ⟨hfound, fun _ ↦ hfound⟩

/-! ## A module that is written later -/

def newCompiler : Compiler State :=
  ⟨new .empty (Resolver.ofOptions .empty) Table.empty, State.empty⟩

/-- A file that imports a module which is not there. -/
def lonelyFile : FileSet :=
  FileSet.ofBlock "/d".toList defaultFileName "// file: f.ts\nimport { x } from './m'\n".toList

/-- The same file, with the module. -/
def joinedFile : FileSet :=
  FileSet.ofBlock "/d".toList defaultFileName
    "// file: f.ts\nimport { x } from './m'\n// file: m.ts\nexport const x = 1\n".toList

/-- The diagnostics of a file in the result of a request. -/
def reported (result : Except MissingRedirect CompiledFiles) (path : Text) :
    Option (List Diagnostic) :=
  (result.toOption.bind (·.get? path)).map (·.diagnostics)

/-- The second request has the file with its module and says that the module is missing. -/
theorem typeDiagnostics_of_joinedFile :
    ∃ (start start₀ : Compiler State) (fs₀ : FileSystem) (ds : List RawDiagnostic),
      Reaches lineChecker .empty joinedFile (afterRequests [(.empty, lonelyFile)] newCompiler)
        "/d/f.ts".toList start ∧
      start.workspace.overlay.text? "/d/f.ts".toList = some "import { x } from './m'\n".toList ∧
      (run (call .empty (typeDiagnostics "/d/f.ts".toList)) start).1 = .ok ds ∧
      freshTypes fs₀ start₀.workspace "/d/f.ts".toList = .ok ds ∧
      freshTypes .empty start.workspace "/d/f.ts".toList ≠ .ok ds := by
  have hreaches : Reaches lineChecker .empty joinedFile
      (afterRequests [(.empty, lonelyFile)] newCompiler) "/d/f.ts".toList
      { afterRequests [(.empty, lonelyFile)] newCompiler with
        workspace := prepare joinedFile
          (afterRequests [(.empty, lonelyFile)] newCompiler).workspace } :=
    ⟨[], ⟨"/d/f.ts".toList, "import { x } from './m'\n".toList, false⟩,
      [("/d/m.ts".toList, ⟨"/d/m.ts".toList, "export const x = 1\n".toList, false⟩)], [],
      by decide, rfl⟩
  have htext : (prepare joinedFile
      (afterRequests [(.empty, lonelyFile)] newCompiler).workspace).overlay.text?
        "/d/f.ts".toList = some "import { x } from './m'\n".toList := by decide +kernel
  have hrelative : RelativeImports Table.empty "import { x } from './m'\n".toList := by decide
  obtain ⟨hsucceeds, hfound⟩ := typeDiagnostics_after_requests .empty (Resolver.ofOptions .empty)
    Table.empty _ .empty _ _ _ _ hreaches htext
  obtain ⟨ds, hds⟩ := hsucceeds hrelative
  obtain ⟨-, fs₀, start₀, -, -, -, hthen, -⟩ := hfound ds hds
  refine ⟨_, start₀, fs₀, ds, hreaches, htext, hds, (hthen hrelative).1, fun hnow ↦ ?_⟩
  have hone : (run (call .empty (typeDiagnostics "/d/f.ts".toList))
      { afterRequests [(.empty, lonelyFile)] newCompiler with
        workspace := prepare joinedFile
          (afterRequests [(.empty, lonelyFile)] newCompiler).workspace }).1.toOption.map
            List.length = some 1 := by decide +kernel
  have hnone : (freshTypes .empty (prepare joinedFile
      (afterRequests [(.empty, lonelyFile)] newCompiler).workspace)
        "/d/f.ts".toList).toOption.map List.length = some 0 := by decide +kernel
  rw [hds] at hone
  rw [hnow] at hnone
  cases hone.symm.trans hnone

/-- The file has the same code in both requests. Its import is reported as missing in both, and a
new compiler reports nothing in the second. -/
theorem missing_module_stays_missing :
    joinedFile.get? "/d/f.ts".toList = lonelyFile.get? "/d/f.ts".toList ∧
    reported (run (compile lineChecker .empty lonelyFile) newCompiler).1 "/d/f.ts".toList =
      some [.positioned ⟨0, 19⟩
        "Cannot find module './m' or its corresponding type declarations.".toList] ∧
    reported (run (compile lineChecker .empty joinedFile)
        (afterRequests [(.empty, lonelyFile)] newCompiler)).1 "/d/f.ts".toList =
      some [.positioned ⟨0, 19⟩
        "Cannot find module './m' or its corresponding type declarations.".toList] ∧
    reported (run (compile lineChecker .empty joinedFile) newCompiler).1 "/d/f.ts".toList =
      some [] := by
  decide +kernel

end FencedCode.LineChecker
