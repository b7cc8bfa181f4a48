import FencedCode.Proofs.Checker.Line
import FencedCode.Proofs.Compiler.Growth
import FencedCode.Proofs.Workspace.Relative

/-!
# Analyses of files with relative imports

What the line checker finds out about a written file with relative imports is a function of what
the workspace shows: of the file itself, of the files that its imports stand for, and of their
texts. The imports that stand for no file are reported. Only the versions of files that were found
are noted.
-/

namespace FencedCode

/-- The file that a relative name in a written file stands for. -/
def Workspace.targetOf (fs : FileSystem) (w : Workspace) (importer name : Text) : Option Text :=
  (w.view fs).eval (Lookup.fileOrFolder (relativeTarget importer name))

namespace LineChecker

open Compiler LineSyntax Workspace

/-! ## The imports of a text -/

/-- The imports of rows that begin at an offset, each with the offset of its row. -/
def importsFrom : Nat → List Text → List (Nat × ImportLine)
  | _, [] => []
  | offset, row :: rest =>
    (importLine? row).toList.map (offset, ·) ++ importsFrom (offset + Text.byteSize row) rest

/-- The imports of a text, each with the offset of its row. -/
def imports (text : Text) : List (Nat × ImportLine) := importsFrom 0 (Text.rows text)

/-- The import is relative and not redirected. -/
def IsPlain (redirects : Redirects) (i : Nat × ImportLine) : Prop :=
  redirects.get? i.2.module = none ∧ Path.isRelative i.2.module

instance (redirects : Redirects) (i : Nat × ImportLine) : Decidable (IsPlain redirects i) :=
  inferInstanceAs (Decidable (_ ∧ _))

/-- All imports of the text are relative, and none of them is redirected. -/
def RelativeImports (redirects : Redirects) (text : Text) : Prop :=
  ∀ i ∈ imports text, IsPlain redirects i

instance (redirects : Redirects) (text : Text) : Decidable (RelativeImports redirects text) :=
  inferInstanceAs (Decidable (∀ i ∈ imports text, IsPlain redirects i))

theorem addImports_eq_foldlM (file : Text) (offset : Nat) (rows : List Text) (sofar : Imported) :
    addImports file offset rows sofar =
      (importsFrom offset rows).foldlM (fun sofar i ↦ addImport file i.1 i.2 sofar) sofar := by
  induction rows generalizing offset sofar with
  | nil => rfl
  | cons row rest ih =>
    rw [addImports, importsFrom, List.foldlM_append]
    cases importLine? row with
    | none => exact (pure_bind _ _).trans ((ih _ _).trans (pure_bind _ _).symm)
    | some line =>
      simp only [ih, Option.toList_some, List.map_cons, List.map_nil, List.foldlM_cons,
        List.foldlM_nil, bind_pure]

/-! ## One import -/

variable (fs : FileSystem) (w : Workspace) (file : Text)

/-- One import more, as the workspace shows the files. -/
def withImport (sofar : Imported) (i : Nat × ImportLine) : Imported :=
  match w.targetOf fs file i.2.module with
  | some target => { sofar with
      versions := sofar.versions ++ [(target, w.version fs target)]
      signatures :=
        withNames sofar.signatures (signatures ((w.text? fs target).getD [])) i.2.names }
  | none => { sofar with diagnostics := sofar.diagnostics ++ [missingModule file i.1 i.2] }

variable {fs w file} {w' : Workspace}

theorem targetOf_eq_of_showsSame (h : ShowsSame fs w w') :
    w'.targetOf fs file = w.targetOf fs file := by
  funext name
  rw [targetOf, h.view_eq, ← targetOf]

theorem version_eq_of_showsSame (h : ShowsSame fs w w') : w'.version fs = w.version fs := by
  funext path
  rw [Workspace.version, h.overlay, ← Workspace.version]

theorem withImport_eq_of_showsSame (h : ShowsSame fs w w') :
    withImport fs w' file = withImport fs w file := by
  funext sofar i
  rw [withImport, targetOf_eq_of_showsSame h, version_eq_of_showsSame h, h.texts, ← withImport]

variable {c : Compiler State} {name : Text} {i : Nat × ImportLine} {sofar : Imported}

theorem run_call_resolve_relative (hredirect : c.workspace.redirects.get? name = none)
    (hrelative : Path.isRelative name) (hvirtual : c.workspace.isVirtual file) :
    ∃ found w', run (call fs (CheckM.resolve file [name])) c = (.ok [found], ⟨w', c.state⟩) ∧
      found.map (·.file) = c.workspace.targetOf fs file name ∧
      ShowsSame fs c.workspace w' := by
  obtain ⟨found, hfound, hfile, -⟩ :=
    exists_found_of_relative fs hredirect hrelative hvirtual
  have hname : resolveName fs file name c.workspace =
      (.ok found, (resolveName fs file name c.workspace).2) := Prod.ext hfound rfl
  refine ⟨found, _, ?_, hfile, showsSame_resolveName fs file name c.workspace⟩
  have hbatch : resolveNames fs file [name] c.workspace =
      (.ok [found], (resolveName fs file name c.workspace).2) := resolveNames_cons_of_ok hname
  rw [run_call_resolve, hbatch]

/-- The text of the file that is found for an import is remembered when it comes from disk. -/
def Remembers (fs : FileSystem) (w : Workspace) (file name : Text) (w' : Workspace) : Prop :=
  ∀ target text, w.targetOf fs file name = some target → ¬ w.isVirtual target →
    w.text? fs target = some text → w'.reads.texts.get? (Path.normalize target) = some text

theorem run_addImport (fs : FileSystem) (sofar : Imported)
    (hplain : IsPlain c.workspace.redirects i) (hvirtual : c.workspace.isVirtual file) :
    ∃ w', run (call fs (addImport file i.1 i.2 sofar)) c =
        (.ok (withImport fs c.workspace file sofar i), ⟨w', c.state⟩) ∧
      ShowsSame fs c.workspace w' ∧ Remembers fs c.workspace file i.2.module w' := by
  obtain ⟨found, w₁, hresolve, hfile, hsame⟩ :=
    run_call_resolve_relative hplain.1 hplain.2 hvirtual
  rw [addImport, call_bind, run_bind, hresolve]
  dsimp only [List.head?_cons, Option.join_some]
  cases found with
  | none =>
    have hnone : c.workspace.targetOf fs file i.2.module = none := hfile.symm
    refine ⟨w₁, ?_, hsame, fun target text htarget ↦ ?_⟩
    · rw [withImport, hnone]
      rfl
    · cases hnone.symm.trans htarget
  | some m =>
    have hsome : c.workspace.targetOf fs file i.2.module = some m.file := hfile.symm
    refine ⟨(read fs m.file w₁).2, ?_, hsame.trans (showsSame_read fs _ _),
      fun target text htarget hdisk htext ↦ ?_⟩
    · dsimp only
      rw [call_bind, run_bind, run_call_version]
      dsimp only
      rw [call_bind, run_bind, run_call_read, version_eq_of_showsSame hsame, withImport, hsome,
        ← hsame.texts]
      rfl
    · obtain rfl : m.file = target := Option.some.inj (hsome.symm.trans htarget)
      rw [← hsame.texts] at htext
      apply cached_of_read _ htext
      rwa [isVirtual, hsame.overlay]

/-! ## All imports -/

/-- What the imports of a file come to, as the workspace shows the files. -/
theorem run_foldlM_addImport (fs : FileSystem) {l : List (Nat × ImportLine)}
    (hplain : ∀ i ∈ l, IsPlain c.workspace.redirects i)
    (hvirtual : c.workspace.isVirtual file) (sofar : Imported) :
    ∃ w', run (call fs (l.foldlM (fun sofar i ↦ addImport file i.1 i.2 sofar) sofar)) c =
        (.ok (l.foldl (withImport fs c.workspace file) sofar), ⟨w', c.state⟩) ∧
      ShowsSame fs c.workspace w' ∧ ∀ i ∈ l, Remembers fs c.workspace file i.2.module w' := by
  induction l generalizing c sofar with
  | nil => exact ⟨c.workspace, rfl, ShowsSame.refl fs _, fun i hi ↦ absurd hi List.not_mem_nil⟩
  | cons i rest ih =>
    obtain ⟨hfirst, hrest⟩ := List.forall_mem_cons.mp hplain
    obtain ⟨w₁, hrun, hsame, hremembers⟩ :=
      run_addImport fs sofar hfirst hvirtual
    have hredirects : w₁.redirects = c.workspace.redirects :=
      ((onlyAsks_call fs _).of_run_eq hrun).redirects
    have hvirtual₁ : w₁.isVirtual file := by rwa [isVirtual, hsame.overlay]
    obtain ⟨w', hothers, hsame', hremembers'⟩ := ih (c := ⟨w₁, c.state⟩)
      (fun j hj ↦ by rw [hredirects]; exact hrest j hj) hvirtual₁
      (withImport fs c.workspace file sofar i)
    have hgrows : w₁.GrowsTo w' := by
      have hcall := along_call fs (lastsWhileAsking_growsTo fs) (rest.foldlM (fun sofar i ↦
        addImport file i.1 i.2 sofar) (withImport fs c.workspace file sofar i)) ⟨w₁, c.state⟩
      rwa [hothers] at hcall
    rw [withImport_eq_of_showsSame hsame] at hothers
    refine ⟨w', ?_, hsame.trans hsame', fun j hj ↦ ?_⟩
    · rw [List.foldlM_cons, call_bind, run_bind, hrun]
      exact hothers
    · rcases List.mem_cons.mp hj with rfl | hj
      · intro target text htarget hdisk htext
        exact hgrows.reads _ _ (hremembers target text htarget hdisk htext)
      · intro target text htarget hdisk htext
        apply hremembers' j hj target text
        · rwa [targetOf_eq_of_showsSame hsame]
        · rwa [isVirtual, hsame.overlay]
        · rwa [hsame.texts]

/-- What the imports of a file come to on top of what an analysis begins with. -/
def seen (fs : FileSystem) (w : Workspace) (file text : Text) : Imported :=
  (imports text).foldl (withImport fs w file) (begun w.overlay file text)

/-- What is wrong with a file of the text, as the workspace shows the files. -/
def diagnosticsOf (fs : FileSystem) (w : Workspace) (file text : Text) : List RawDiagnostic :=
  (concluded file text (seen fs w file text)).diagnostics

variable {text : Text}

theorem run_call_analyze (htext : c.workspace.overlay.text? file = some text) :
    run (call fs (analyze file)) c = run (call fs (do
      let imported ← addImports file 0 (Text.rows text) (begun c.workspace.overlay file text)
      return concluded file text imported)) (counted c) := by
  rw [analyze, call_bind, run_bind, run_call_modify]
  dsimp only
  rw [call_bind, run_bind, run_call_read, read_of_text? htext]
  dsimp only
  rw [call_bind, run_bind, run_call_version, version_of_isVirtual (isVirtual_of_text? htext)]
  rfl

/-- An analysis of a file with relative imports succeeds, and what it comes to depends on nothing
but what the workspace shows. -/
theorem run_analyze (fs : FileSystem) (htext : c.workspace.overlay.text? file = some text)
    (hrelative : RelativeImports c.workspace.redirects text) :
    ∃ w', run (call fs (analyze file)) c =
        (.ok (concluded file text (seen fs c.workspace file text)), ⟨w', (counted c).state⟩) ∧
      ∀ i ∈ imports text, Remembers fs c.workspace file i.2.module w' := by
  obtain ⟨w', hrun, -, hremembers⟩ := run_foldlM_addImport fs (c := counted c) hrelative
    (isVirtual_of_text? htext) (begun c.workspace.overlay file text)
  refine ⟨w', ?_, hremembers⟩
  rw [run_call_analyze htext, addImports_eq_foldlM, ← imports, call_bind, run_bind, hrun]
  rfl

/-! ## What an analysis says -/

/-- The rows of a file are never wrong for want of a module. -/
theorem code_ne_of_mem_rowsDiagnostics {signatures : Signatures} {offset : Nat} {rows : List Text}
    {raw : RawDiagnostic} (h : raw ∈ rowsDiagnostics file signatures offset rows) :
    raw.code ≠ 2307 := by
  induction rows generalizing offset with
  | nil => exact absurd h List.not_mem_nil
  | cons row rest ih =>
    rcases List.mem_append.mp h with hrow | hrest
    · rcases List.mem_append.mp hrow with hdeclared | hpassed
      · obtain ⟨_, -, rfl⟩ := List.mem_map.mp hdeclared
        exact (by decide : (2322 : Nat) ≠ 2307)
      · split at hpassed
        · exact absurd hpassed List.not_mem_nil
        · obtain ⟨_, -, rfl⟩ := List.mem_map.mp hpassed
          exact (by decide : (2345 : Nat) ≠ 2307)
    · exact ih hrest

theorem module_eq_of_missingModule_eq {i j : Nat × ImportLine}
    (h : missingModule file i.1 i.2 = missingModule file j.1 j.2) : i.2.module = j.2.module := by
  have hmessage := (RawDiagnostic.mk.inj h).2.2.2.2
  have htext := Message.text.inj hmessage
  exact List.append_cancel_left (List.append_cancel_right htext)

/-- Whatever an import is, all it can add to the diagnostics is that its module is missing. -/
theorem diagnostics_of_run_addImport {next : Imported} {c' : Compiler State}
    (h : run (call fs (addImport file i.1 i.2 sofar)) c = (.ok next, c')) :
    next.diagnostics = sofar.diagnostics ∨
      next.diagnostics = sofar.diagnostics ++ [missingModule file i.1 i.2] := by
  obtain ⟨target, version, text, rfl⟩ | rfl := addImport_cases h
  · exact .inl rfl
  · exact .inr rfl

/-- What imports add to an analysis: some modules are missing, and of the plain imports those that
stand for no file. The versions of the files that plain imports stand for are noted. -/
structure Adds (fs : FileSystem) (w : Workspace) (file : Text) (l : List (Nat × ImportLine))
    (sofar imported : Imported) (absent : List (Nat × ImportLine)) : Prop where
  diagnostics : imported.diagnostics =
    sofar.diagnostics ++ absent.map fun i ↦ missingModule file i.1 i.2
  versions : sofar.versions ⊆ imported.versions
  absent_subset : absent ⊆ l
  mem_absent_iff : ∀ i ∈ l, IsPlain w.redirects i →
    (i ∈ absent ↔ w.targetOf fs file i.2.module = none)
  version_mem : ∀ i ∈ l, IsPlain w.redirects i → ∀ target,
    w.targetOf fs file i.2.module = some target →
      (target, w.version fs target) ∈ imported.versions

theorem Adds.nil (fs : FileSystem) (w : Workspace) (file : Text) (sofar : Imported) :
    Adds fs w file [] sofar sofar [] where
  diagnostics := (List.append_nil _).symm
  versions := List.Subset.refl _
  absent_subset := List.Subset.refl _
  mem_absent_iff _ hi := absurd hi List.not_mem_nil
  version_mem _ hi := absurd hi List.not_mem_nil

theorem Adds.append {l l' absent absent' : List (Nat × ImportLine)} {next imported : Imported}
    (h : Adds fs w file l sofar next absent) (h' : Adds fs w file l' next imported absent') :
    Adds fs w file (l ++ l') sofar imported (absent ++ absent') where
  diagnostics := by
    rw [h'.diagnostics, h.diagnostics, List.map_append, List.append_assoc]
  versions := List.Subset.trans h.versions h'.versions
  absent_subset := List.append_subset.mpr
    ⟨List.subset_append_of_subset_left _ h.absent_subset,
      List.subset_append_of_subset_right _ h'.absent_subset⟩
  mem_absent_iff j hj hplain := by
    constructor
    · intro habsent
      rcases List.mem_append.mp habsent with habsent | habsent
      · exact (h.mem_absent_iff j (h.absent_subset habsent) hplain).mp habsent
      · exact (h'.mem_absent_iff j (h'.absent_subset habsent) hplain).mp habsent
    · intro hnone
      rcases List.mem_append.mp hj with hj | hj
      · exact List.mem_append_left _ ((h.mem_absent_iff j hj hplain).mpr hnone)
      · exact List.mem_append_right _ ((h'.mem_absent_iff j hj hplain).mpr hnone)
  version_mem j hj hplain target htarget := by
    rcases List.mem_append.mp hj with hj | hj
    · exact h'.versions (h.version_mem j hj hplain target htarget)
    · exact h'.version_mem j hj hplain target htarget

theorem Adds.of_showsSame {w' : Workspace} {l absent : List (Nat × ImportLine)}
    {imported : Imported} (hsame : ShowsSame fs w w') (hredirects : w'.redirects = w.redirects)
    (h : Adds fs w' file l sofar imported absent) : Adds fs w file l sofar imported absent := by
  have hiff := h.mem_absent_iff
  have hmem := h.version_mem
  rw [targetOf_eq_of_showsSame hsame, hredirects] at hiff hmem
  rw [version_eq_of_showsSame hsame] at hmem
  exact ⟨h.diagnostics, h.versions, h.absent_subset, hiff, hmem⟩

theorem exists_adds_of_run_addImport (hvirtual : c.workspace.isVirtual file) {next : Imported}
    {c' : Compiler State} (h : run (call fs (addImport file i.1 i.2 sofar)) c = (.ok next, c')) :
    ∃ absent, Adds fs c.workspace file [i] sofar next absent := by
  by_cases hplain : IsPlain c.workspace.redirects i
  · obtain ⟨w', hrun, -, -⟩ := run_addImport fs sofar hplain hvirtual
    obtain rfl := Except.ok.inj (Prod.mk.inj (hrun.symm.trans h)).1
    cases htarget : c.workspace.targetOf fs file i.2.module with
    | none =>
      refine ⟨[i], ?_, ?_, List.Subset.refl _, ?_, ?_⟩
      all_goals simp [withImport, htarget]
    | some target =>
      refine ⟨[], ?_, ?_, List.nil_subset _, ?_, ?_⟩
      all_goals simp [withImport, htarget]
  · have hversions := versions_subset_of_run_addImport h
    have hnot : ∀ j ∈ [i], ¬ IsPlain c.workspace.redirects j := by simpa using hplain
    rcases diagnostics_of_run_addImport h with hsame | hmissing
    · exact ⟨[], by simpa using hsame, hversions, List.nil_subset _,
        fun j hj hjplain ↦ absurd hjplain (hnot j hj), fun j hj hjplain ↦
          absurd hjplain (hnot j hj)⟩
    · exact ⟨[i], hmissing, hversions, List.Subset.refl _,
        fun j hj hjplain ↦ absurd hjplain (hnot j hj), fun j hj hjplain ↦
          absurd hjplain (hnot j hj)⟩

theorem showsSame_of_run_call {α : Type} {action : CheckM State α} {c' : Compiler State}
    {result : Except MissingRedirect α} (h : run (call fs action) c = (result, c')) :
    ShowsSame fs c.workspace c'.workspace := by
  have hcall := along_call fs (lastsWhileAsking_showsSame fs) action c
  rwa [h] at hcall

theorem exists_adds_of_run_foldlM {l : List (Nat × ImportLine)}
    (hvirtual : c.workspace.isVirtual file) {imported : Imported} {c' : Compiler State}
    (h : run (call fs (l.foldlM (fun sofar i ↦ addImport file i.1 i.2 sofar) sofar)) c =
      (.ok imported, c')) : ∃ absent, Adds fs c.workspace file l sofar imported absent := by
  induction l generalizing c sofar with
  | nil =>
    obtain ⟨rfl, -⟩ := run_pure_eq_ok_iff.mp h
    exact ⟨[], Adds.nil fs _ file sofar⟩
  | cons i rest ih =>
    rw [List.foldlM_cons, call_bind, run_bind_eq_ok_iff] at h
    obtain ⟨next, middle, hfirst, hothers⟩ := h
    have hsame := showsSame_of_run_call hfirst
    have hredirects := ((onlyAsks_call fs _).of_run_eq hfirst).redirects
    obtain ⟨first, hadds⟩ := exists_adds_of_run_addImport hvirtual hfirst
    obtain ⟨others, hadds'⟩ := ih (by rwa [isVirtual, hsame.overlay]) hothers
    exact ⟨first ++ others, hadds.append (hadds'.of_showsSame hsame hredirects)⟩

/-- Of the imports of an analyzed file the plain ones are reported as missing exactly when they
stand for no file. -/
theorem Adds.missingModule_mem_iff {imported : Imported} {absent : List (Nat × ImportLine)}
    (h : Adds fs w file (imports text) sofar imported absent) (hnone : sofar.diagnostics = [])
    (hi : i ∈ imports text) (hplain : IsPlain w.redirects i) :
    missingModule file i.1 i.2 ∈ (concluded file text imported).diagnostics ↔
      w.targetOf fs file i.2.module = none := by
  have hdiagnostics : (concluded file text imported).diagnostics =
      (absent.map fun i ↦ missingModule file i.1 i.2) ++
        rowsDiagnostics file imported.signatures 0 (Text.rows text) := by
    rw [concluded, h.diagnostics, hnone, List.nil_append]
  rw [hdiagnostics, ← h.mem_absent_iff i hi hplain]
  constructor
  · intro hmem
    rcases List.mem_append.mp hmem with hmissing | hrows
    · -- Another import that is reported alike has the same module, and so the same target.
      obtain ⟨j, hj, hsame⟩ := List.mem_map.mp hmissing
      have hmodule := module_eq_of_missingModule_eq hsame
      have hjplain : IsPlain w.redirects j := by rwa [IsPlain, hmodule]
      rw [h.mem_absent_iff i hi hplain, ← hmodule]
      exact (h.mem_absent_iff j (h.absent_subset hj) hjplain).mp hj
    · exact absurd rfl (code_ne_of_mem_rowsDiagnostics hrows)
  · intro habsent
    exact List.mem_append_left _ (List.mem_map.mpr ⟨i, habsent, rfl⟩)

/-- The workspaces show the file that a name stands for, and its text, alike. -/
def ShowsImportAlike (fs fs' : FileSystem) (w w' : Workspace) (file name : Text) : Prop :=
  w'.targetOf fs' file name = w.targetOf fs file name ∧
    ∀ target, w.targetOf fs file name = some target → w'.text? fs' target = w.text? fs target

theorem foldl_withImport_alike {fs' : FileSystem} {l : List (Nat × ImportLine)}
    (h : ∀ i ∈ l, ShowsImportAlike fs fs' w w' file i.2.module) (sofar sofar' : Imported)
    (hdiagnostics : sofar'.diagnostics = sofar.diagnostics)
    (hsignatures : sofar'.signatures = sofar.signatures) :
    (l.foldl (withImport fs' w' file) sofar').diagnostics =
        (l.foldl (withImport fs w file) sofar).diagnostics ∧
      (l.foldl (withImport fs' w' file) sofar').signatures =
        (l.foldl (withImport fs w file) sofar).signatures := by
  induction l generalizing sofar sofar' with
  | nil => exact ⟨hdiagnostics, hsignatures⟩
  | cons i rest ih =>
    obtain ⟨⟨htarget, htext⟩, hrest⟩ := List.forall_mem_cons.mp h
    rw [List.foldl_cons, List.foldl_cons]
    apply ih hrest _ _ _ _
    · rw [withImport, htarget, withImport]
      cases w.targetOf fs file i.2.module with
      | none => exact congrArg (· ++ _) hdiagnostics
      | some target => exact hdiagnostics
    · rw [withImport, htarget, withImport]
      cases hfound : w.targetOf fs file i.2.module with
      | none => exact hsignatures
      | some target =>
        dsimp only
        rw [hsignatures, htext target hfound]

/-- Where all imports are shown alike the same is wrong. -/
theorem diagnosticsOf_alike {fs' : FileSystem}
    (h : ∀ i ∈ imports text, ShowsImportAlike fs fs' w w' file i.2.module) :
    diagnosticsOf fs' w' file text = diagnosticsOf fs w file text := by
  obtain ⟨hdiagnostics, hsignatures⟩ := foldl_withImport_alike h
    (begun w.overlay file text) (begun w'.overlay file text) rfl rfl
  show (seen fs' w' file text).diagnostics ++ rowsDiagnostics file _ 0 _ = _
  rw [seen, hdiagnostics, hsignatures]
  rfl

end LineChecker

end FencedCode
