import FencedCode.Proofs.Checker.Import
import FencedCode.Proofs.Compiler.History
import FencedCode.Proofs.Source.Filling

/-!
# What the line checker emits

The line checker drops blank rows and takes annotations out of the others. A code whose only blank
rows are empty ones has none left when it is filled, so all of its rows are emitted, and clearing
gives the empty ones back. What a request for a single file comes to is then the code without
annotations, row by row. The request can only fail because of an import that is redirected to a
place where nothing is found.
-/

namespace FencedCode

namespace LineSyntax

open Text

/-! ## Annotations -/

theorem annotations_spec : ∀ annotation ∈ annotations, annotation ≠ [] ∧ '\n' ∉ annotation := by
  decide

/-- Text patterns without line feeds are taken out on both sides of a line feed apart. -/
theorem foldl_replaceAll_append_cons {patterns : List Text}
    (h : ∀ pattern ∈ patterns, pattern ≠ [] ∧ '\n' ∉ pattern) (before after : Text) :
    patterns.foldl (fun line pattern ↦ replaceAll pattern [] line) (before ++ '\n' :: after) =
      patterns.foldl (fun line pattern ↦ replaceAll pattern [] line) before ++
        '\n' :: patterns.foldl (fun line pattern ↦ replaceAll pattern [] line) after := by
  induction patterns generalizing before after with
  | nil => rfl
  | cons pattern rest ih =>
    obtain ⟨⟨hne, hfeed⟩, hrest⟩ := List.forall_mem_cons.mp h
    simp only [List.foldl_cons, replaceAll_nil_eq hne]
    rw [replaceFrom_append_cons hfeed hne, ih hrest]

theorem withoutAnnotations_append_cons (before after : Text) :
    withoutAnnotations (before ++ '\n' :: after) =
      withoutAnnotations before ++ '\n' :: withoutAnnotations after :=
  foldl_replaceAll_append_cons annotations_spec before after

theorem foldl_replaceAll_sublist {patterns : List Text} (h : ∀ pattern ∈ patterns, pattern ≠ [])
    (line : Text) :
    (patterns.foldl (fun line pattern ↦ replaceAll pattern [] line) line).Sublist line := by
  induction patterns generalizing line with
  | nil => exact List.Sublist.refl line
  | cons pattern rest ih =>
    obtain ⟨hne, hrest⟩ := List.forall_mem_cons.mp h
    rw [List.foldl_cons]
    refine (ih hrest _).trans ?_
    rw [replaceAll_nil_eq hne]
    exact replaceFrom_nil_sublist 0 line

theorem notMem_withoutAnnotations {c : Char} {line : Text} (h : c ∉ line) :
    c ∉ withoutAnnotations line := fun hmem ↦
  h ((foldl_replaceAll_sublist (fun a ha ↦ (annotations_spec a ha).1) line).subset hmem)

theorem withoutAnnotations_append_singleton (body : Text) :
    withoutAnnotations (body ++ ['\n']) = withoutAnnotations body ++ ['\n'] :=
  withoutAnnotations_append_cons body []

/-- An empty line stays in its place when annotations are taken out of each row. -/
theorem lines_flatMap_withoutAnnotations (code : Text) :
    lines ((rows code).flatMap withoutAnnotations) = (lines code).map withoutAnnotations := by
  induction code using row_induction with
  | nil => decide
  | last row hne hnot =>
    rw [rows_of_notMem hne hnot, List.flatMap_singleton, lines_of_notMem hnot, List.map_singleton,
      lines_of_notMem (notMem_withoutAnnotations hnot)]
  | cons body rest hbody ih =>
    rw [rows_body_append hbody, List.flatMap_cons, withoutAnnotations_append_singleton,
      List.append_assoc, List.singleton_append,
      lines_body_append (notMem_withoutAnnotations hbody), ih, lines_body_append hbody,
      List.map_cons]

/-! ## Emitted rows -/

/-- A row as it is emitted. -/
def emittedRow (row : Text) : Text := if allBlank row then [] else withoutAnnotations row

theorem emitted_eq_flatMap (text : Text) : emitted text = (rows text).flatMap emittedRow := by
  unfold emitted
  induction rows text with
  | nil => rfl
  | cons row rest ih =>
    rw [List.flatMap_cons, ← ih, emittedRow]
    by_cases h : allBlank row
    · rw [List.filter_cons_of_neg (by simp [h]), if_pos h, List.nil_append]
    · rw [List.filter_cons_of_pos (by simp [h]), if_neg h, List.flatMap_cons]

theorem emittedRow_append_singleton (body : Text) :
    emittedRow (body ++ ['\n']) =
      if allBlank body then [] else withoutAnnotations body ++ ['\n'] := by
  have hblank : allBlank (body ++ ['\n']) = allBlank body := by
    rw [allBlank, List.all_append]
    exact Bool.and_true _
  rw [emittedRow, hblank, withoutAnnotations_append_singleton]

/-- A filled code is emitted and cleared row by row. -/
theorem clearPlaceholders_emitted_fillEmptyLines (code : Text) :
    clearPlaceholders (emitted (fillEmptyLines code)) =
      (rows code).flatMap fun row ↦ clearPlaceholders (emittedRow (fillRow row)) := by
  have hterminated (body : Text) (hbody : '\n' ∉ body) :
      Terminated (emittedRow (fillRow (body ++ ['\n']))) := by
    rw [fillRow_append_singleton hbody, emittedRow_append_singleton]
    split
    · exact terminated_nil
    · exact terminated_append_singleton _
  rw [emitted_eq_flatMap, rows_fillEmptyLines, List.flatMap_map,
    clearPlaceholders_flatMap hterminated]

/-- What is emitted of a filled code, and then cleared, is the code without its annotations. -/
theorem clearPlaceholders_emitted {code : Text}
    (hblank : ∀ row ∈ rows code, allBlank row → IsEmptyRow row)
    (hfree : ¬ placeholder <:+: (rows code).flatMap withoutAnnotations) :
    clearPlaceholders (emitted (fillEmptyLines code)) =
      (rows code).flatMap withoutAnnotations := by
  rw [clearPlaceholders_emitted_fillEmptyLines]
  refine List.flatMap_congr fun row hrow ↦ ?_
  rw [fillRow_eq (ne_nil_of_mem_rows hrow)]
  split
  · rename_i hempty
    rcases hempty with rfl | rfl | rfl <;> decide
  · rename_i hempty
    rw [emittedRow, if_neg (mt (hblank row hrow) hempty)]
    refine clearPlaceholders_of_not_within fun hwithin ↦ hfree (hwithin.trans ?_)
    exact List.infix_of_mem_flatten (List.mem_map_of_mem hrow)

end LineSyntax

namespace LineChecker

open Compiler LineSyntax

variable {fs : FileSystem} {c c' : Compiler State} {e : MissingRedirect}

/-! ## Failures -/

/-- One of the rows imports a name whose redirect leads to nothing, and that is the failure. -/
def FailsToImport (fs : FileSystem) (w : Workspace) (file : Text) (rows : List Text)
    (e : MissingRedirect) : Prop :=
  ∃ row ∈ rows, ∃ line redirect, importLine? row = some line ∧
    w.redirects.get? line.module = some redirect ∧
    (w.view fs).eval (w.resolver redirect.target file) = none ∧
    e = ⟨line.module, redirect.target⟩

/-- Asking makes no difference to what fails. -/
theorem FailsToImport.of_alike {w w' : Workspace} {file : Text} {rows : List Text}
    (h : FailsToImport fs w' file rows e) (hagrees : w.Agrees w')
    (hshown : w.ShowsSame fs w') : FailsToImport fs w file rows e := by
  obtain ⟨row, hrow, line, redirect, hline, hredirect, hnone, he⟩ := h
  rw [hagrees.redirects] at hredirect
  rw [hshown.view_eq, hagrees.resolver] at hnone
  exact ⟨row, hrow, line, redirect, hline, hredirect, hnone, he⟩

theorem exists_redirect_of_run_addImport {file : Text} {offset : Nat} {line : ImportLine}
    {sofar : Imported} (h : run (call fs (addImport file offset line sofar)) c = (.error e, c')) :
    ∃ redirect, c.workspace.redirects.get? line.module = some redirect ∧
      (c.workspace.view fs).eval (c.workspace.resolver redirect.target file) = none ∧
      e = ⟨line.module, redirect.target⟩ := by
  rw [addImport, call_bind, run_bind_eq_error_iff] at h
  rcases h with hresolve | ⟨modules, middle, -, h⟩
  · rw [run_call_resolve] at hresolve
    obtain ⟨name, hname, redirect, hredirect, houtcome⟩ :=
      Workspace.exists_redirect_of_resolveNames_error (Prod.mk.inj hresolve).1
    obtain rfl := List.mem_singleton.mp hname
    exact ⟨redirect, hredirect, Workspace.redirectOutcome_eq_error_iff.mp houtcome⟩
  · split at h
    · rw [call_bind, run_bind, run_call_version] at h
      dsimp only at h
      rw [call_bind, run_bind, run_call_read] at h
      exact absurd h (run_pure_ne_error _ e _ c')
    · exact absurd h (run_pure_ne_error _ e _ c')

theorem failsToImport_of_run_addImports {file : Text} {offset : Nat} {rows : List Text}
    {sofar : Imported} (h : run (call fs (addImports file offset rows sofar)) c = (.error e, c')) :
    FailsToImport fs c.workspace file rows e := by
  induction rows generalizing offset sofar c with
  | nil => exact absurd h (run_pure_ne_error sofar e c c')
  | cons row rest ih =>
    rw [addImports] at h
    split at h
    · rename_i line hline
      rw [call_bind, run_bind_eq_error_iff] at h
      rcases h with hfirst | ⟨next, middle, hnext, h⟩
      · obtain ⟨redirect, hfound⟩ := exists_redirect_of_run_addImport hfirst
        exact ⟨row, List.mem_cons_self, line, redirect, hline, hfound⟩
      · obtain ⟨other, hother, hfails⟩ :=
          (ih h).of_alike ((onlyAsks_call fs _).of_run_eq hnext) (showsSame_of_run_call hnext)
        exact ⟨other, List.mem_cons_of_mem _ hother, hfails⟩
    · rw [call_bind, run_bind, run_call_pure] at h
      obtain ⟨other, hother, hfails⟩ := ih h
      exact ⟨other, List.mem_cons_of_mem _ hother, hfails⟩

theorem failsToImport_of_run_typeDiagnostics {file text : Text}
    (htext : c.workspace.overlay.text? file = some text)
    (h : run (call fs (typeDiagnostics file)) c = (.error e, c')) :
    FailsToImport fs c.workspace file (Text.rows text) e := by
  rcases run_call_typeDiagnostics fs file c with ⟨analysis, -, -, hrun⟩ | hrun
  · cases hrun.symm.trans h
  · rw [hrun, run_call_renew htext, call_bind, run_bind_eq_error_iff] at h
    rcases h with himports | ⟨imported, middle, -, h⟩
    · exact failsToImport_of_run_addImports (c := counted c) himports
    · rw [call_bind, run_bind, run_call_modify] at h
      exact absurd h (run_pure_ne_error _ e _ c')

/-! ## A request -/

variable {key text : Text}

theorem failsToImport_of_callFails (htext : c.workspace.overlay.text? key = some text)
    (h : CallFails lineChecker fs key c e c') :
    FailsToImport fs c.workspace key (Text.rows text) e := by
  have hcheck := run_check_eq_error_iff.mpr h
  rw [run_check fs htext, run_bind_eq_error_iff] at hcheck
  rcases hcheck with htypes | ⟨_, _, -, hpure⟩
  · exact failsToImport_of_run_typeDiagnostics htext htypes
  · exact absurd hpure (run_pure_ne_error _ e _ c')

/-- Filling brings in no import. -/
theorem importLine?_of_fillRow {row : Text} {line : ImportLine} (hne : row ≠ [])
    (h : importLine? (fillRow row) = some line) : importLine? row = some line := by
  rw [fillRow_eq hne] at h
  split at h
  · rename_i hempty
    have hnone : importLine? (placeholder ++ row) = none := by
      rcases hempty with rfl | rfl | rfl <;> decide
    cases hnone.symm.trans h
  · exact h

theorem FailsToImport.of_fillEmptyLines {w : Workspace} {code : Text}
    (h : FailsToImport fs w key (Text.rows (fillEmptyLines code)) e) :
    FailsToImport fs w key (Text.rows code) e := by
  obtain ⟨filled, hfilled, line, redirect, hline, hfound⟩ := h
  rw [rows_fillEmptyLines] at hfilled
  obtain ⟨row, hrow, rfl⟩ := List.mem_map.mp hfilled
  exact ⟨row, hrow, line, redirect,
    importLine?_of_fillRow (Text.ne_nil_of_mem_rows hrow) hline, hfound⟩

/-- A request emits each file from the code that is the last one at its path, or it fails because of
an import in such a code. -/
theorem run_compile_cases (fs : FileSystem) (c : Compiler State) (files : FileSet) :
    (∃ compiled c', run (compile lineChecker fs files) c = (.ok compiled, c') ∧
      compiled.keys = files.keys ∧
      ∀ key ∈ files.keys, ∀ last, files.LastAt key last → ∃ result,
        compiled.get? key = some result ∧
        result.code = clearPlaceholders (emitted (fillEmptyLines last.code))) ∨
    ∃ e c', run (compile lineChecker fs files) c = (.error e, c') ∧
      ∃ key ∈ files.keys, ∃ last, files.LastAt key last ∧
        FailsToImport fs (prepare files c.workspace) key (Text.rows last.code) e := by
  rcases hrun : run (compile lineChecker fs files) c with ⟨e | compiled, c'⟩
  · obtain ⟨key, start, hreaches, hfails⟩ := run_compile_eq_error_iff.mp hrun
    obtain ⟨last, hlast⟩ := FileSet.exists_lastAt hreaches.mem_keys
    have htext := hlast.text?_writeAll c.workspace.overlay
    rw [← hreaches.overlay] at htext
    have himport := (failsToImport_of_callFails htext hfails).of_fillEmptyLines
    exact .inr ⟨e, c', rfl, key, hreaches.mem_keys, last, hlast,
      himport.of_alike (hreaches.along (Workspace.lastsWhileAsking_agrees fs))
        (hreaches.along (Workspace.lastsWhileAsking_showsSame fs))⟩
  · refine .inl ⟨compiled, c', rfl, keys_of_run_compile hrun, fun key hkey last hlast ↦ ?_⟩
    rw [← Table.contains_iff] at hkey
    obtain ⟨file, hfile⟩ := Option.isSome_iff_exists.mp hkey
    obtain ⟨a, after, ⟨start, hreaches, _, _, _, hemit, -⟩, hresult⟩ := exists_learns hrun hfile
    have htext := hlast.text?_writeAll c.workspace.overlay
    rw [← hreaches.overlay] at htext
    have hemitted := Except.ok.inj (Prod.mk.inj (hemit.symm.trans (run_call_emit fs htext))).1
    exact ⟨_, hresult, by rw [resultOf, hemitted, emittedCode]⟩

theorem run_compile_single (fs : FileSystem) (c : Compiler State) (key : Text)
    (file : SourceFile) :
    (∃ result c', run (compile lineChecker fs (Table.ofList [(key, file)])) c =
        (.ok (Table.ofList [(key, result)]), c') ∧
      result.code = clearPlaceholders (emitted (fillEmptyLines file.code))) ∨
    ∃ e c', run (compile lineChecker fs (Table.ofList [(key, file)])) c = (.error e, c') ∧
      FailsToImport fs (prepare (Table.ofList [(key, file)]) c.workspace) key
        (Text.rows file.code) e := by
  rcases run_compile_cases fs c (Table.ofList [(key, file)]) with
    ⟨compiled, c', hrun, hkeys, hcodes⟩ | ⟨e, c', hrun, other, hkey, last, hlast, hfails⟩
  · obtain ⟨result, hresult, hcode⟩ := hcodes key List.mem_cons_self file
      ⟨[], key, [], rfl, rfl, fun _ h ↦ absurd h List.not_mem_nil⟩
    have hcompiled : compiled = (Table.ofList [(key, file)]).map fun _ _ ↦ result := by
      refine Table.eq_map_of_get? hkeys fun other _ hother ↦ ?_
      obtain ⟨rfl, -⟩ := Prod.mk.inj (List.mem_singleton.mp (Table.get?_eq_some_iff.mp hother))
      exact hresult
    rw [hcompiled] at hrun
    exact .inl ⟨result, c', hrun, hcode⟩
  · obtain rfl := List.mem_singleton.mp hkey
    obtain rfl := List.mem_singleton.mp hlast.mem_values
    exact .inr ⟨e, c', hrun, hfails⟩

/-- A code that has no blank rows but empty ones, and that is free of placeholders when its
annotations are taken out, is emitted without its annotations, row by row, and every empty line
stays in its place. The request can only fail because of an import that is redirected to a target
for which nothing is found. -/
theorem compile_single_emits (fs : FileSystem) (c : Compiler State) (key : Text)
    (file : SourceFile)
    (hblank : ∀ row ∈ Text.rows file.code, Text.allBlank row → IsEmptyRow row)
    (hfree : ¬ placeholder <:+: (Text.rows file.code).flatMap withoutAnnotations) :
    ((∃ result c', run (compile lineChecker fs (Table.ofList [(key, file)])) c =
          (.ok (Table.ofList [(key, result)]), c') ∧
        result.code = (Text.rows file.code).flatMap withoutAnnotations) ∨
      ∃ e c', run (compile lineChecker fs (Table.ofList [(key, file)])) c = (.error e, c') ∧
        FailsToImport fs (prepare (Table.ofList [(key, file)]) c.workspace) key
          (Text.rows file.code) e) ∧
    ∀ (i : Nat) (line : Text), (Text.lines file.code)[i]? = some line → line = [] ∨ line = ['\r'] →
      (Text.lines ((Text.rows file.code).flatMap withoutAnnotations))[i]? = some line := by
  refine ⟨?_, fun i line hline hempty ↦ ?_⟩
  · rw [← clearPlaceholders_emitted hblank hfree]
    exact run_compile_single fs c key file
  · have hkept : withoutAnnotations line = line := by
      rcases hempty with rfl | rfl <;> decide
    rw [lines_flatMap_withoutAnnotations, List.getElem?_map, hline, Option.map_some, hkept]

theorem compile_single_emits_sample :
    (∀ row ∈ Text.rows "let a: string\n\n\r\nlet b:number\n\r".toList,
      Text.allBlank row → IsEmptyRow row) ∧
    ¬ placeholder <:+:
      (Text.rows "let a: string\n\n\r\nlet b:number\n\r".toList).flatMap withoutAnnotations ∧
    ∃ result c', run (compile lineChecker .empty (Table.ofList [("/d/a.ts".toList,
        ⟨"/d/a.ts".toList, "let a: string\n\n\r\nlet b:number\n\r".toList, false⟩)]))
        ⟨Workspace.ofOptions .empty Table.empty, State.empty⟩ =
          (.ok (Table.ofList [("/d/a.ts".toList, result)]), c') ∧
      result.code = "let a\n\n\r\nlet b\n\r".toList := by
  have hblank : ∀ row ∈ Text.rows "let a: string\n\n\r\nlet b:number\n\r".toList,
      Text.allBlank row → IsEmptyRow row := by decide
  have hfree : ¬ placeholder <:+:
      (Text.rows "let a: string\n\n\r\nlet b:number\n\r".toList).flatMap withoutAnnotations := by
    decide
  obtain ⟨⟨result, c', hrun, hcode⟩ | ⟨e, c', -, row, -, line, redirect, -, hredirect, -⟩, -⟩ :=
    compile_single_emits .empty ⟨Workspace.ofOptions .empty Table.empty, State.empty⟩
      "/d/a.ts".toList ⟨"/d/a.ts".toList, _, false⟩ hblank hfree
  · exact ⟨hblank, hfree, result, c', hrun, hcode.trans (by decide)⟩
  · exact absurd hredirect (Option.some_ne_none redirect).symm

end LineChecker

end FencedCode
