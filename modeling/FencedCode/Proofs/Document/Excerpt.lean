import FencedCode.Proofs.Diagnostic.Excerpt
import FencedCode.Proofs.Document.Attribution

/-!
# Excerpts of failures

A failure names a line of the document, and a line of the source file of which its report shows an
excerpt. The two are the same row: the marked row of the excerpt stands in the block where the line
of the document points. An excerpt has a marked row as long as its last line fits a machine word.
With more lines behind the failing one than that, there is no excerpt, or one without the row that
it is about.
-/

namespace FencedCode

open Text

namespace CodeBlock

variable {σ : Type} {checker : Checker σ} {fs : FileSystem} {settings : Settings} {document : Text}
  {index : Nat} {block : CodeBlock} {c c' : Compiler σ}

theorem exists_compiledName_of_compiled {output : BlockOutput}
    (hrun : Compiler.run (block.compile checker fs settings document index) c =
      (.ok (.compiled output), c')) : ∃ default, block.compiledName? = some default := by
  cases hname : block.compiledName? with
  | some default => exact ⟨default, rfl⟩
  | none =>
    simp only [compile, hname] at hrun
    exact absurd (Compiler.run_pure_eq_ok_iff.mp hrun).1 (by simp)

/-- Every failure of a block is about one of its files. -/
theorem exists_failure_eq {output : BlockOutput}
    (hrun : Compiler.run (block.compile checker fs settings document index) c =
      (.ok (.compiled output), c')) {f : Failure} (hf : f ∈ output.failures) :
    ∃ default file before d,
      (Sections.ofText block.value).FileBehind (blockFolder settings document index) default
        before file ∧
      f = failure document block file.path file.code (lineFeeds before) d := by
  obtain ⟨default, hname⟩ := exists_compiledName_of_compiled hrun
  obtain ⟨compiled, hcompiled, houtput⟩ := exists_outputOf hname hrun
  obtain ⟨answers, after, -, rfl⟩ := Compiler.exists_answers hcompiled
  rw [BlockOutcome.compiled.inj houtput, failures_outputOf] at hf
  obtain ⟨path, hpath, hf⟩ := List.mem_flatMap.mp hf
  obtain ⟨raw, -, rfl⟩ := List.mem_map.mp hf
  rw [← Table.contains_iff] at hpath
  obtain ⟨file, hfile⟩ := Option.isSome_iff_exists.mp hpath
  obtain ⟨before, hbehind, rfl⟩ := FileSet.exists_fileBehind hfile
  have hstart := hbehind.get?_startLines
  refine ⟨default, file, before, raw.placed ((after file.path).workspace.text? fs), hbehind, ?_⟩
  simp only [failureFor, starts, hfile, hstart, Option.map_some, Option.getD_some]

/-- A positioned failure has a line in its source, and that row of the source is the row of the
block at the line in the document. -/
theorem exists_fileLine_of_positioned {output : BlockOutput}
    (hrun : Compiler.run (block.compile checker fs settings document index) c =
      (.ok (.compiled output), c')) {f : Failure} (hf : f ∈ output.failures) {line column : Nat}
    (hlocation : f.location = .at line column) :
    ∃ fileLine, f.fileLine = some fileLine ∧ ∀ row, (rows f.source)[fileLine]? = some row →
      (rows block.value)[line - block.startLine - 1]? = some row := by
  obtain ⟨default, file, before, d, hbehind, rfl⟩ := exists_failure_eq hrun hf
  obtain ⟨after, htext, hbefore, hcode⟩ :=
    hbehind.exists_after (Sections.cuts_ofText block.value)
  cases d with
  | positionless message => exact absurd hlocation (by simp [failure, Diagnostic.position?])
  | positioned p message =>
    rw [failure_positioned] at hlocation ⊢
    refine ⟨p.line, rfl, fun row hrow ↦ ?_⟩
    obtain ⟨rfl, -⟩ := Location.at.inj hlocation
    have hline : block.startLine + 1 + (p.line + lineFeeds before) - block.startLine - 1 =
        lineFeeds before + p.line := by omega
    rw [hline, htext]
    exact getElem?_rows_of_middle hbefore hcode hrow

/-- The excerpt of a positioned failure, without colours, has the rows of its source from the lines
before the failing one to those behind it. Its marked row is the row of the block at the line in the
document. There is one exactly when the last line of the excerpt fits a machine word. -/
theorem excerpt?_of_positioned (checker : Checker σ) (fs : FileSystem) (settings : Settings)
    (document : Text) (index : Nat) (block : CodeBlock) (c c' : Compiler σ) (output : BlockOutput)
    (f : Failure) (line column : Nat)
    (hrun : Compiler.run (block.compile checker fs settings document index) c =
      (.ok (.compiled output), c')) (hf : f ∈ output.failures)
    (hlocation : f.location = .at line column) :
    ∃ fileLine, f.fileLine = some fileLine ∧
      ∀ (overflow : Overflow) (options : ReportOptions), options.colored = false →
        (fileLine + options.linesAfter.toNat < UInt64.size →
          ∃ shown, Report.excerpt? overflow options f.source fileLine = some shown ∧
            rows shown = Report.excerptRows f.source fileLine
              (fileLine - options.linesBefore.toNat) (fileLine + options.linesAfter.toNat)) ∧
        (fileLine < (rows f.source).length →
          ∃ row, (rows block.value)[line - block.startLine - 1]? = some row ∧
            ((∃ shown, Report.excerpt? overflow options f.source fileLine = some shown ∧
                (rows shown).filter Report.IsMarked =
                  [Report.numberedRow true (fileLine + 1) (shownRow row) ++ ['\n']]) ↔
              fileLine + options.linesAfter.toNat < UInt64.size)) := by
  obtain ⟨fileLine, hfileLine, hrow⟩ := exists_fileLine_of_positioned hrun hf hlocation
  refine ⟨fileLine, hfileLine, fun overflow options hplain ↦ ⟨fun hfits ↦ ?_, fun hline ↦ ?_⟩⟩
  · exact Report.exists_rows_excerpt? hplain overflow f.source hfits
  · have hsource := List.getElem?_eq_getElem hline
    refine ⟨(rows f.source)[fileLine], hrow _ hsource, ?_⟩
    rw [← Report.exists_marked_excerpt?_iff hplain overflow hline]
    have hmarked : Report.excerptLine f.source fileLine fileLine =
        Report.numberedRow true (fileLine + 1) (shownRow (rows f.source)[fileLine]) := by
      simp [Report.excerptLine, hsource]
    rw [hmarked]

theorem excerpt?_of_secondRow :
    ∃ output f shown,
      (Compiler.run (compile (reportingChecker "d/codeBlock_1/index.ts".toList
          [⟨some "d/codeBlock_1/index.ts".toList, some 3, 1, 1, .text ['e']⟩]) .empty
        plainSettings ['d'] 1 ⟨"ts".toList, none, "x\r\ny\r\n".toList, 3⟩)
        ⟨Workspace.ofOptions .empty Table.empty, ()⟩).1 = .ok (.compiled output) ∧
      f ∈ output.failures ∧ f.location = .at 5 1 ∧ f.fileLine = some 1 ∧
      Report.excerpt? .fails .plain f.source 1 = some shown ∧
      (rows shown).filter Report.IsMarked = [">   2 | y\n".toList] := by
  let f : Failure :=
    ⟨['d'], "d/codeBlock_1/index.ts".toList, .at 5 1, some 1, ['e'], "x\r\ny\r\n".toList⟩
  have hrun : Compiler.run (compile (reportingChecker "d/codeBlock_1/index.ts".toList
          [⟨some "d/codeBlock_1/index.ts".toList, some 3, 1, 1, .text ['e']⟩]) .empty
        plainSettings ['d'] 1 ⟨"ts".toList, none, "x\r\ny\r\n".toList, 3⟩)
        ⟨Workspace.ofOptions .empty Table.empty, ()⟩ =
      (.ok (.compiled ⟨"d/codeBlock_1".toList, "x\r\ny".toList, [], [f]⟩), _) :=
    Compiler.run_eq_of_fst_eq (by decide +kernel)
  obtain ⟨fileLine, hfileLine, h⟩ := excerpt?_of_positioned _ _ _ _ _ _ _ _ _ f 5 1 hrun
    List.mem_cons_self rfl
  obtain rfl : 1 = fileLine := Option.some.inj hfileLine
  obtain ⟨row, hrow, hmarked⟩ := (h .fails .plain rfl).2 (by decide)
  obtain ⟨shown, hshown, hmarked⟩ := hmarked.mpr (by decide)
  obtain rfl : "y\r\n".toList = row := Option.some.inj hrow
  exact ⟨_, f, shown, congrArg Prod.fst hrun, List.mem_cons_self, rfl, rfl, hshown, hmarked⟩

/-- The excerpt of a failure on the second of two rows, with as many rows behind it as can be asked
for, has no marked row. -/
theorem excerpt?_loses_line :
    ∃ (block : CodeBlock) (raw : RawDiagnostic) (c c' : Compiler Unit) (output : BlockOutput)
      (f : Failure) (options : ReportOptions),
      ((sources plainSettings ['d'] 1 defaultFileName block).keys.map Path.normalize).Nodup ∧
      raw.file = some "d/codeBlock_1/index.ts".toList ∧
      Compiler.run (compile (reportingChecker "d/codeBlock_1/index.ts".toList [raw]) .empty
        plainSettings ['d'] 1 block) c = (.ok (.compiled output), c') ∧
      output.failures = [f] ∧ f.location = .at 3 1 ∧ f.fileLine = some 1 ∧
      1 < (rows f.source).length ∧ options.colored = false ∧
      ∀ overflow shown, Report.excerpt? overflow options f.source 1 = some shown →
        (rows shown).filter Report.IsMarked = [] := by
  let raw : RawDiagnostic :=
    ⟨some "d/codeBlock_1/index.ts".toList, some 2, 1, 1, .text ['e']⟩
  let f : Failure :=
    ⟨['d'], "d/codeBlock_1/index.ts".toList, .at 3 1, some 1, ['e'], "x\ny".toList⟩
  refine ⟨⟨"ts".toList, none, "x\ny".toList, 1⟩, raw, ⟨Workspace.ofOptions .empty Table.empty, ()⟩,
    _, ⟨"d/codeBlock_1".toList, "x\ny".toList, [], [f]⟩, f,
    { ReportOptions.plain with linesAfter := .ofNat (UInt64.size - 1) }, by decide, rfl,
    Compiler.run_eq_of_fst_eq (by decide +kernel), rfl, rfl, rfl, by decide, rfl, ?_⟩
  intro overflow shown hshown
  cases overflow with
  | fails => exact absurd hshown.symm (Option.some_ne_none shown)
  | wraps =>
    obtain rfl : "    1 | x\n".toList = shown := Option.some.inj hshown
    decide

end CodeBlock

end FencedCode
