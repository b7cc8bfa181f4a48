import FencedCode.Proofs.Diagnostic.Outline
import FencedCode.Proofs.Diagnostic.Report
import FencedCode.Proofs.Document.Excerpt

/-!
# Short reports of a block

Each diagnostic of a block becomes a failure, and its message is written out with a line for each of
its elaborations. A short report of these failures has all these lines: the entry of a failure
begins behind the lines of the messages in front of it. There is one row for each failure exactly
when nothing that the checker reports has elaborations, or a line feed in its text.
-/

namespace FencedCode.CodeBlock

open Text

variable {σ : Type} {checker : Checker σ} {fs : FileSystem} {settings : Settings} {document : Text}
  {index : Nat} {block : CodeBlock} {c c' : Compiler σ} {output : BlockOutput}

theorem document_of_mem_failures
    (hrun : Compiler.run (block.compile checker fs settings document index) c =
      (.ok (.compiled output), c')) {f : Failure} (hf : f ∈ output.failures) :
    f.document = document := by
  obtain ⟨_, _, _, _, -, rfl⟩ := exists_failure_eq hrun hf
  rfl

/-- The messages of the failures are those of the diagnostics, written out with line feeds. -/
theorem exists_reported
    (hrun : Compiler.run (block.compile checker fs settings document index) c =
      (.ok (.compiled output), c')) :
    ∃ (default : Text) (answers : Text → Compiler.Answers) (after : Text → Compiler σ),
      block.compiledName? = some default ∧
      (∀ path ∈ (sources settings document index default block).keys, Compiler.Learns checker fs
        (sources settings document index default block) c path (answers path) (after path)) ∧
      output.failures.map (·.message) =
        ((sources settings document index default block).keys.flatMap fun path ↦
          (answers path).diagnostics).map (·.message.flatten ['\n']) := by
  obtain ⟨default, hname⟩ := exists_compiledName_of_compiled hrun
  obtain ⟨compiled, hcompiled, houtput⟩ := exists_outputOf hname hrun
  obtain ⟨answers, after, hlearns, rfl⟩ := Compiler.exists_answers hcompiled
  refine ⟨default, answers, after, hname, hlearns, ?_⟩
  rw [BlockOutcome.compiled.inj houtput, failures_outputOf, List.map_flatMap, List.map_flatMap]
  refine List.flatMap_congr fun path _ ↦ ?_
  rw [List.map_map]
  exact List.map_congr_left fun raw _ ↦ raw.message_placed _

/-- A short report of the failures of a block has the lines of all that is reported, elaborations
included, and the entry of a failure begins behind those of the diagnostics in front of it. So there
is one row for each failure exactly when no diagnostic has elaborations or a line feed in its
text. -/
theorem shortReport_hasRowEach_iff (checker : Checker σ) (fs : FileSystem) (settings : Settings)
    (document : Text) (index : Nat) (block : CodeBlock) (c c' : Compiler σ) (output : BlockOutput)
    (hdocument : '\n' ∉ document)
    (hrun : Compiler.run (block.compile checker fs settings document index) c =
      (.ok (.compiled output), c')) :
    ∃ (default : Text) (answers : Text → Compiler.Answers) (after : Text → Compiler σ)
      (reported : List RawDiagnostic),
      block.compiledName? = some default ∧
      (∀ path ∈ (sources settings document index default block).keys, Compiler.Learns checker fs
        (sources settings document index default block) c path (answers path) (after path)) ∧
      reported = ((sources settings document index default block).keys.flatMap fun path ↦
        (answers path).diagnostics) ∧
      output.failures.map (·.message) = reported.map (·.message.flatten ['\n']) ∧
      ∀ overflow, ∃ report, Report.ofFailures? overflow .short output.failures = some report ∧
        (rows report).length = (reported.map (·.message.height)).sum ∧
        (∀ (i : Nat) (f : Failure), output.failures[i]? = some f →
          ∃ row, (rows report)[((reported.take i).map (·.message.height)).sum]? = some row ∧
            f.heading <+: row) ∧
        (Report.HasRowEach report output.failures ↔
          ∀ raw ∈ reported, raw.message.elaborations = [] ∧ '\n' ∉ raw.message.head) := by
  obtain ⟨default, answers, after, hname, hlearns, hmessages⟩ := exists_reported hrun
  have hdocuments : ∀ f ∈ output.failures, '\n' ∉ f.document := by
    intro f hf
    rwa [document_of_mem_failures hrun hf]
  refine ⟨default, answers, after, _, hname, hlearns, rfl, hmessages, fun overflow ↦ ?_⟩
  generalize ((sources settings document index default block).keys.flatMap fun path ↦
    (answers path).diagnostics) = reported at hmessages
  have hheights : output.failures.map (fun f ↦ lineCount f.message) =
      reported.map (·.message.height) := by
    have hcounts := congrArg (List.map lineCount) hmessages
    rw [List.map_map, List.map_map] at hcounts
    exact hcounts.trans (List.map_congr_left fun raw _ ↦ raw.message.lineCount_flatten)
  refine ⟨_, Report.ofFailures?_short overflow output.failures, ?_, fun i f hf ↦ ?_, ?_⟩
  · rw [Report.length_rows_short hdocuments, hheights]
  · rw [List.map_take, ← hheights, ← List.map_take]
    exact Report.exists_row_short hdocuments hf
  · have hone : (∀ n ∈ output.failures.map fun f ↦ lineCount f.message, n = 1) ↔
        ∀ f ∈ output.failures, lineCount f.message = 1 := List.forall_mem_map
    rw [Report.hasRowEach_short_iff hdocuments, ← hone, hheights, List.forall_mem_map]
    exact forall₂_congr fun raw _ ↦ raw.message.height_eq_one_iff

/-- Of two diagnostics the first has an elaboration, so the entry of the second begins in the third
row. -/
theorem shortReport_of_elaboration :
    ∃ (output : BlockOutput) (report row : Text),
      '\n' ∉ ['d'] ∧
      (Compiler.run (compile (reportingChecker "d/codeBlock_1/index.ts".toList
          [⟨none, none, 0, 1, .chain ['e'] [.text ['f']]⟩, ⟨none, none, 0, 1, .text ['g']⟩]) .empty
        plainSettings ['d'] 1 ⟨"ts".toList, none, ['x'], 3⟩)
        ⟨Workspace.ofOptions .empty Table.empty, ()⟩).1 = .ok (.compiled output) ∧
      Report.ofFailures? .fails .short output.failures = some report ∧
      (rows report).length = 3 ∧ ¬ Report.HasRowEach report output.failures ∧
      (rows report)[2]? = some row ∧ "d:3: ".toList <+: row := by
  let path : Text := "d/codeBlock_1/index.ts".toList
  let raws : List RawDiagnostic :=
    [⟨none, none, 0, 1, .chain ['e'] [.text ['f']]⟩, ⟨none, none, 0, 1, .text ['g']⟩]
  let block : CodeBlock := ⟨"ts".toList, none, ['x'], 3⟩
  let c : Compiler Unit := ⟨Workspace.ofOptions .empty Table.empty, ()⟩
  let failures : List Failure :=
    [⟨['d'], path, .block 3, none, "e\n  f".toList, ['x']⟩,
      ⟨['d'], path, .block 3, none, ['g'], ['x']⟩]
  have hdocument : '\n' ∉ ['d'] := by decide
  have hrun : Compiler.run (compile (reportingChecker path raws) .empty plainSettings ['d'] 1 block)
      c = (.ok (.compiled ⟨"d/codeBlock_1".toList, ['x'], [], failures⟩), _) :=
    Compiler.run_eq_of_fst_eq (by decide +kernel)
  obtain ⟨default, answers, after, reported, hname, hlearns, hreported, -, hreports⟩ :=
    shortReport_hasRowEach_iff _ _ _ _ _ _ _ _ _ hdocument hrun
  obtain rfl : defaultFileName = default := Option.some.inj hname
  obtain ⟨report, hreport, hlength, hrows, heach⟩ := hreports .fails
  obtain ⟨_, -, hanswered⟩ := hlearns path (by decide)
  have hkeys : (sources plainSettings ['d'] 1 defaultFileName block).keys = [path] := by decide
  rw [hkeys, List.flatMap_singleton, (eq_of_answered_reportingChecker hanswered).1] at hreported
  obtain rfl : reported = raws := hreported
  obtain ⟨row, hrow, hprefix⟩ := hrows 1 _ rfl
  refine ⟨_, report, row, hdocument, congrArg Prod.fst hrun, hreport, hlength, ?_, hrow, hprefix⟩
  rw [heach]
  decide

/-- A diagnostic with an elaboration makes two rows of a short report, but one failure. -/
theorem shortReport_not_hasRowEach :
    ∃ (block : CodeBlock) (raw : RawDiagnostic) (c c' : Compiler Unit) (output : BlockOutput)
      (f : Failure) (report : Text),
      raw.message = .chain ['e'] [.text ['f']] ∧
      Compiler.run (compile (reportingChecker "d/codeBlock_1/index.ts".toList [raw]) .empty
        plainSettings ['d'] 1 block) c = (.ok (.compiled output), c') ∧
      '\n' ∉ ['d'] ∧ output.failures = [f] ∧
      Report.ofFailures? .fails .short output.failures = some report ∧
      rows report = ["d:3: e\n".toList, "  f\n".toList] ∧
      ¬ Report.HasRowEach report output.failures := by
  let raw : RawDiagnostic := ⟨none, none, 0, 1, .chain ['e'] [.text ['f']]⟩
  let f : Failure :=
    ⟨['d'], "d/codeBlock_1/index.ts".toList, .block 3, none, "e\n  f".toList, ['x']⟩
  refine ⟨⟨"ts".toList, none, ['x'], 3⟩, raw, ⟨Workspace.ofOptions .empty Table.empty, ()⟩, _,
    ⟨"d/codeBlock_1".toList, ['x'], [], [f]⟩, f, "d:3: e\n  f\n".toList, rfl,
    Compiler.run_eq_of_fst_eq (by decide +kernel), by decide, rfl, by decide, by decide,
    fun heach ↦ ?_⟩
  exact absurd heach.1 (by decide)

end FencedCode.CodeBlock
