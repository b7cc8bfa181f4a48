import FencedCode.Document
import FencedCode.Proofs.Compiler.Request
import FencedCode.Proofs.Source.Placeholder
import FencedCode.Proofs.Source.StartLine
import FencedCode.Proofs.Text.Offset

/-!
# Where failures point

A diagnostic is reported at a byte offset of a code whose empty lines are filled. Its failure points
at a line and a column of the document. Cutting the block, counting the lines in front of a body,
filling empty lines and counting line feeds before an offset agree on what a line is, so the line of
the document that the failure names is the line of the code that the diagnostic was reported on.
-/

namespace FencedCode

open Text

/-- What line and column mean for an offset into a code that stands behind `before` in a text. -/
structure Pinpoints (text before code : Text) (offset line column : Nat) : Prop where
  /-- The line feeds among the bytes in front of the offset. -/
  line_eq : line = lineFeedsWithin (fillEmptyLines code) offset
  /-- Unless nothing is left behind the last line feed, the line of the code is a line of the
  text. -/
  line_in_text : (line = lineFeeds code ∧ (lines code)[line]? = some []) ∨
    ∃ row, (lines code)[line]? = some row ∧ (lines text)[line + lineFeeds before]? = some row
  /-- On a line that is not empty, and between two characters, the column counts the characters
  in front of the offset. -/
  column_eq : ∀ pre post row, fillEmptyLines code = pre ++ post →
    byteSize pre = min offset (byteSize (fillEmptyLines code)) →
    (lines code)[line]? = some row → rowBody row ≠ [] →
    ∃ front, (lines pre)[line]? = some front ∧ front <+: row ∧ column = front.length + 1

/-- The position of an offset pinpoints it, when the pieces around the code end rows. -/
theorem pinpoints_ofOffset {before code after : Text} (hbefore : code ≠ [] → Terminated before)
    (hcode : after ≠ [] → Terminated code) (offset : Nat) :
    Pinpoints (before ++ (code ++ after)) before code offset
      (Position.ofOffset (fillEmptyLines code) offset).line
      ((Position.ofOffset (fillEmptyLines code) offset).character + 1) := by
  have hline := Position.line_ofOffset (fillEmptyLines code) offset
  have hle := lineFeedsWithin_le (fillEmptyLines code) offset
  rw [lineFeeds_fillEmptyLines, ← hline] at hle
  refine ⟨hline, ?_, ?_⟩
  · generalize (Position.ofOffset (fillEmptyLines code) offset).line = line at hle
    have hlt : line < (lines code).length := by
      rw [length_lines]
      omega
    have hrow := List.getElem?_eq_getElem hlt
    by_cases hempty : line = lineFeeds code ∧ (lines code)[line] = []
    · left
      exact ⟨hempty.1, by rw [hrow, hempty.2]⟩
    · right
      refine ⟨(lines code)[line], hrow, ?_⟩
      rw [Nat.add_comm]
      apply getElem?_lines_of_middle hbefore hcode hrow
      exact fun hlast hnil ↦ hempty ⟨hlast, hnil⟩
  · intro pre post row hfill hsize hrow hbody
    rw [hfill] at hsize
    obtain ⟨front, hfront, hposition⟩ := Position.exists_ofOffset hsize
    have hfilled := getElem?_lines_fillEmptyLines_of_ne_nil hrow hbody
    rw [hfill, hposition] at hfilled ⊢
    obtain ⟨row', hrow', hprefix⟩ := exists_prefix_getElem?_lines_append hfront post
    rw [hrow'] at hfilled
    obtain rfl := Option.some.inj hfilled
    exact ⟨front, hfront, hprefix, rfl⟩

namespace CodeBlock

/-- The files of a block, which is the block of the given number in its document. -/
def sources (settings : Settings) (document : Text) (index : Nat) (default : Text)
    (block : CodeBlock) : FileSet :=
  FileSet.ofBlock (blockFolder settings document index) default block.value

theorem failure_mem_failures (document : Text) {block : CodeBlock} {folder default path : Text}
    {files : FileSet} {compiled : CompiledFiles} {file : SourceFile} {result : CompiledFile}
    {start : Nat} {d : Diagnostic} (hfile : files.get? path = some file)
    (hstart : (startLines folder default block.value).get? path = some start)
    (hresult : (path, result) ∈ compiled.entries) (hd : d ∈ result.diagnostics) :
    failure document block path file.code start d ∈
      failures document block folder default files compiled := by
  unfold failures
  refine List.mem_flatMap.mpr ⟨(path, result), hresult, ?_⟩
  simp only [hfile, hstart]
  exact List.mem_map_of_mem hd

theorem failure_positioned (document : Text) (block : CodeBlock) (path source : Text)
    (offset : Nat) (p : Position) (message : Text) :
    failure document block path source offset (.positioned p message) =
      ⟨document, path, .at (block.startLine + 1 + (p.line + offset)) (p.character + 1), some p.line,
        message, source⟩ := by
  have hline : block.startLine + 1 + offset + p.line = block.startLine + 1 + (p.line + offset) := by
    omega
  simp only [failure, Diagnostic.position?, Diagnostic.message, Option.map_some, hline]

variable {σ : Type} (checker : Checker σ) (fs : FileSystem) (settings : Settings)
  (document : Text) (index : Nat)

theorem run_compile_eq_ok {block : CodeBlock} {default : Text}
    (hname : block.compiledName? = some default) {c c' : Compiler σ} {outcome : BlockOutcome}
    (h : Compiler.run (block.compile checker fs settings document index) c = (.ok outcome, c')) :
    ∃ compiled output,
      Compiler.run (Compiler.compile checker fs (sources settings document index default block)) c =
        (.ok compiled, c') ∧
      outcome = .compiled output ∧
      output.failures = failures document block (blockFolder settings document index) default
        (sources settings document index default block) compiled := by
  unfold compile at h
  simp only [hname] at h
  rw [Compiler.run_bind_eq_ok_iff] at h
  obtain ⟨compiled, _, hcompiled, h⟩ := h
  obtain ⟨rfl, rfl⟩ := Compiler.run_pure_eq_ok_iff.mp h
  exact ⟨compiled, _, hcompiled, rfl, rfl⟩

theorem succeeds_compile {checker : Checker σ} {fs : FileSystem}
    (hcheck : ∀ key, Compiler.Succeeds (Compiler.check checker fs key)) (block : CodeBlock) :
    Compiler.Succeeds (block.compile checker fs settings document index) := by
  unfold compile
  split
  · exact Compiler.Succeeds.pure _
  · exact (Compiler.succeeds_compile hcheck _).bind fun _ ↦ Compiler.Succeeds.pure _

/-- What the checker reports of a file in that file becomes a failure of the block. It points at
the line of the document that stands in the file where the diagnostic does. -/
theorem exists_failure_of_reports (block : CodeBlock) (default path : Text) (raw : RawDiagnostic)
    (offset : Nat) (c c' : Compiler σ) (outcome : BlockOutcome)
    (hname : block.compiledName? = some default)
    (hpaths : ((sources settings document index default block).keys.map Path.normalize).Nodup)
    (hrun : Compiler.run (block.compile checker fs settings document index) c = (.ok outcome, c'))
    (hraw : Compiler.Reports checker fs (sources settings document index default block) c path raw)
    (hfile : raw.file = some path) (hstart : raw.start = some offset) :
    ∃ output file before after line column, outcome = .compiled output ∧
      (sources settings document index default block).get? path = some file ∧
      (Sections.ofText block.value).FileBehind (blockFolder settings document index) default
        before file ∧
      block.value = before ++ (file.code ++ after) ∧
      Pinpoints block.value before file.code offset line column ∧
      ⟨document, path, .at (block.startLine + 1 + (line + lineFeeds before)) column, some line,
        raw.message.flatten ['\n'], file.code⟩ ∈ output.failures := by
  obtain ⟨compiled, output, hcompiled, houtcome, hfailures⟩ :=
    run_compile_eq_ok checker fs settings document index hname hrun
  obtain ⟨file, result, hget, hresult, hdiagnostic⟩ :=
    Compiler.exists_mem_entries_of_reports checker fs hpaths hcompiled hraw hfile
  obtain ⟨before, hbehind, hpath⟩ := FileSet.exists_fileBehind hget
  obtain ⟨after, htext, hbefore, hcode⟩ :=
    hbehind.exists_after (Sections.cuts_ofText block.value)
  have hpin := pinpoints_ofOffset hbefore hcode offset
  have hstarts := hbehind.get?_startLines
  rw [hpath] at hstarts
  have hmem := failure_mem_failures document hget hstarts hresult hdiagnostic
  simp only [Diagnostic.ofRaw, hfile, hstart, failure_positioned] at hmem
  rw [← htext] at hpin
  rw [← hfailures] at hmem
  exact ⟨output, file, before, after, _, _, houtcome, hget, hbehind, htext, hpin, hmem⟩

theorem exists_failure_behind_empty_line :
    ∃ output code before after line column,
      (Compiler.run (compile (Compiler.steadyChecker
          [⟨some "d/codeBlock_1/b.ts".toList, some 14, 1, 1, .text ['e']⟩])
        ⟨fun _ ↦ false, fun _ ↦ false, fun _ ↦ none, fun _ ↦ none⟩
        ⟨⟨0⟩, none, none, Table.empty, none, none, none⟩ ['d'] 1
        ⟨"ts".toList, none, "// file: a.ts\nx\n// file: b.ts\n\ny".toList, 3⟩)
        ⟨Workspace.ofOptions .empty Table.empty, ()⟩).1 = .ok (.compiled output) ∧
      Pinpoints "// file: a.ts\nx\n// file: b.ts\n\ny".toList before code 14 line column ∧
      "// file: a.ts\nx\n// file: b.ts\n\ny".toList = before ++ (code ++ after) ∧
      ⟨['d'], "d/codeBlock_1/b.ts".toList, .at (3 + 1 + (line + lineFeeds before)) column,
        some line, ['e'], code⟩ ∈ output.failures := by
  let raw : RawDiagnostic := ⟨some "d/codeBlock_1/b.ts".toList, some 14, 1, 1, .text ['e']⟩
  let fs : FileSystem := ⟨fun _ ↦ false, fun _ ↦ false, fun _ ↦ none, fun _ ↦ none⟩
  let settings : Settings := ⟨⟨0⟩, none, none, Table.empty, none, none, none⟩
  let block : CodeBlock := ⟨"ts".toList, none, "// file: a.ts\nx\n// file: b.ts\n\ny".toList, 3⟩
  obtain ⟨outcome, c', hrun⟩ := succeeds_compile settings ['d'] 1
    (Compiler.succeeds_check_steadyChecker fs [raw]) block
    ⟨Workspace.ofOptions .empty Table.empty, ()⟩
  obtain ⟨output, file, before, after, line, column, rfl, -, -, htext, hpin, hmem⟩ :=
    exists_failure_of_reports (Compiler.steadyChecker [raw]) fs settings ['d'] 1 block
      defaultFileName "d/codeBlock_1/b.ts".toList raw 14 _ c' outcome (by decide) (by decide) hrun
      (Compiler.reports_steadyChecker List.mem_cons_self (by decide) fs _) rfl rfl
  exact ⟨output, file.code, before, after, line, column, by rw [hrun], hpin, htext, hmem⟩

end CodeBlock

end FencedCode
