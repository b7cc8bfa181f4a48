import FencedCode.Proofs.Document.Attribution
import FencedCode.Proofs.Compiler.History
import FencedCode.Proofs.Source.Veil

/-!
# Files that are checked but not shown

Every diagnostic of a hidden file makes a failure, as that of any other file does. But the code of a
hidden file is not shown: when the emitted code of a file depends on its name and on its own text
only, blocks that differ only in hidden code have the same variants.
-/

namespace FencedCode

/-- The checker emits a file by its name and by the text that the workspace shows under it. -/
def Checker.EmitsBy {σ : Type} (checker : Checker σ)
    (emitted : Text → Option Text → List EmittedFile) : Prop :=
  ∀ (fs : FileSystem) (path : Text) (c c' : Compiler σ) (files : List EmittedFile),
    Compiler.run (Compiler.call fs (checker.emit path)) c = (.ok files, c') →
      files = emitted path (c.workspace.text? fs path)

namespace Compiler

variable {σ : Type} {checker : Checker σ} {fs : FileSystem} {files : FileSet}
  {compiled : CompiledFiles} {c c' : Compiler σ} {emitted : Text → Option Text → List EmittedFile}

/-- What each file of a request is emitted as, from its own code. -/
def emittedBy (emitted : Text → Option Text → List EmittedFile) (files : FileSet) : FileSet :=
  files.map fun key file ↦
    ⟨key, emittedCode (emitted key (some (fillEmptyLines file.code))), file.hidden⟩

theorem emitted_of_learns (hemits : checker.EmitsBy emitted)
    (hpaths : (files.keys.map Path.normalize).Nodup) {path : Text} {file : SourceFile}
    (hfile : files.get? path = some file) {a : Answers} {after : Compiler σ}
    (h : Learns checker fs files c path a after) :
    a.emitted = emitted path (some (fillEmptyLines file.code)) := by
  obtain ⟨start, hreaches, _, _, _, hemit, -⟩ := h
  have htext := (CallsFor.emit hreaches).read_of_lastAt (FileSet.lastAt_of_nodup hpaths hfile) fs
  rw [hemits fs path start _ _ hemit, Workspace.text?, htext]

theorem emitted_of_run_compile (hemits : checker.EmitsBy emitted)
    (hpaths : (files.keys.map Path.normalize).Nodup)
    (hrun : run (compile checker fs files) c = (.ok compiled, c')) :
    compiled.emitted = emittedBy emitted files := by
  obtain ⟨answers, after, hlearns, rfl⟩ := exists_answers hrun
  rw [CompiledFiles.emitted, Table.map_map, emittedBy]
  apply Table.eq_map_of_get?
  · rw [Table.keys_map]
  · intro path file hfile
    have hpath : path ∈ files.keys := by
      rw [← Table.contains_iff, Table.contains, hfile, Option.isSome_some]
    rw [Table.get?_map, hfile, Option.map_some, resultOf,
      emitted_of_learns hemits hpaths hfile (hlearns path hpath)]

theorem veiled_emittedBy (emitted : Text → Option Text → List EmittedFile) (files : FileSet) :
    (emittedBy emitted files.veiled).veiled = (emittedBy emitted files).veiled :=
  FileSet.veiled_map_veiled (fun key _ ↦ key)
    (fun key code ↦ emittedCode (emitted key (some (fillEmptyLines code)))) files

end Compiler

/-- The line checker emits a file by its name and its text. -/
theorem LineChecker.emitsBy_lineChecker : lineChecker.EmitsBy fun path text? ↦
    text?.toList.map fun text ↦ ⟨emittedName path, LineSyntax.emitted text⟩ := by
  intro fs path c c' files hrun
  change Compiler.run (Compiler.call fs (LineChecker.emit path)) c = _ at hrun
  rw [LineChecker.emit, Compiler.call_bind, Compiler.run_bind, Compiler.run_call_read] at hrun
  rw [Workspace.text?]
  cases htext : (Workspace.read fs path c.workspace).1 with
  | none =>
    rw [htext] at hrun
    obtain ⟨rfl, -⟩ := Compiler.run_pure_eq_ok_iff.mp hrun
    rfl
  | some text =>
    rw [htext] at hrun
    obtain ⟨rfl, -⟩ := Compiler.run_pure_eq_ok_iff.mp hrun
    rfl

namespace CodeBlock

variable {σ : Type} {settings : Settings} {document : Text} {index : Nat}

/-- The typed variant shows what is left when the hidden codes are taken away. -/
theorem typed_outputOf (htyped : settings.presentTyped = none) (default : Text) (block : CodeBlock)
    (compiled : CompiledFiles) :
    (outputOf settings document index default block compiled).typed =
      listing (blockFolder settings document index)
        (sources settings document index default block).veiled.typedVariant.values := by
  rw [outputOf, Settings.typedVariant, htyped]
  dsimp only
  rw [← FileSet.listing_values_veiled, ← FileSet.veiled_typedVariant,
    FileSet.listing_values_veiled]

theorem compiled_outputOf (hcompiled : settings.presentCompiled = none) (default : Text)
    (block : CodeBlock) {emitted : Text → Option Text → List EmittedFile}
    {compiled : CompiledFiles} (hemitted : compiled.emitted =
      Compiler.emittedBy emitted (sources settings document index default block)) :
    (outputOf settings document index default block compiled).compiled =
      listing (blockFolder settings document index) (Compiler.emittedBy emitted
        (sources settings document index default block).veiled).veiled.compiledVariant.values := by
  rw [outputOf, Settings.compiledVariant, hcompiled]
  dsimp only
  rw [hemitted, ← FileSet.listing_values_veiled, ← FileSet.veiled_compiledVariant,
    FileSet.listing_values_veiled, Compiler.veiled_emittedBy]

/-- Every diagnostic of every file makes one failure, so a block is fine exactly when none of its
files, hidden or not, has a diagnostic. And blocks that agree where they are shown have the same
variants, when the checker emits each file by its name and its own text. -/
theorem hidden_checked_not_shown (checker : Checker σ) (settings : Settings) (document : Text)
    (index : Nat) :
    (∀ (fs : FileSystem) (block : CodeBlock) (default : Text) (c c' : Compiler σ)
        (outcome : BlockOutcome), block.compiledName? = some default →
      Compiler.run (block.compile checker fs settings document index) c = (.ok outcome, c') →
      ∃ (output : BlockOutput) (answers : Text → Compiler.Answers) (after : Text → Compiler σ),
        outcome = .compiled output ∧
        (∀ path ∈ (sources settings document index default block).keys, Compiler.Learns checker fs
          (sources settings document index default block) c path (answers path) (after path)) ∧
        output.failures =
          ((sources settings document index default block).keys.flatMap fun path ↦
            (answers path).diagnostics.map fun raw ↦ failureFor settings document index default
              block path (raw.placed ((after path).workspace.text? fs))) ∧
        (output.isOk ↔ ∀ path ∈ (sources settings document index default block).keys,
          (answers path).diagnostics = [])) ∧
    (settings.presentTyped = none → settings.presentCompiled = none →
      ∀ emitted, checker.EmitsBy emitted →
      ∀ (fs fs' : FileSystem) (block block' : CodeBlock) (default default' : Text)
        (c₁ c₂ c₁' c₂' : Compiler σ) (output output' : BlockOutput),
      block.compiledName? = some default → block'.compiledName? = some default' →
      ((sources settings document index default block).keys.map Path.normalize).Nodup →
      (sources settings document index default block).AgreeWhereShown
        (sources settings document index default' block') →
      Compiler.run (block.compile checker fs settings document index) c₁ =
        (.ok (.compiled output), c₂) →
      Compiler.run (block'.compile checker fs' settings document index) c₁' =
        (.ok (.compiled output'), c₂') →
      output.typed = output'.typed ∧ output.compiled = output'.compiled) := by
  constructor
  · intro fs block default c c' outcome hname hrun
    obtain ⟨compiled, hcompiled, houtcome⟩ := exists_outputOf hname hrun
    obtain ⟨answers, after, hlearns, rfl⟩ := Compiler.exists_answers hcompiled
    refine ⟨_, answers, after, houtcome, hlearns, failures_outputOf answers after, ?_⟩
    rw [BlockOutput.isOk, failures_outputOf answers after, List.isEmpty_iff,
      List.flatMap_eq_nil_iff]
    simp only [List.map_eq_nil_iff]
  · intro htyped hcompiled emitted hemits fs fs' block block' default default' c₁ c₂ c₁' c₂' output
      output' hname hname' hpaths hagree hrun hrun'
    have hpaths' := hpaths
    rw [hagree.keys_eq] at hpaths'
    obtain ⟨compiled, hfiles, houtput⟩ := exists_outputOf hname hrun
    obtain ⟨compiled', hfiles', houtput'⟩ := exists_outputOf hname' hrun'
    obtain rfl := BlockOutcome.compiled.inj houtput
    obtain rfl := BlockOutcome.compiled.inj houtput'
    constructor
    · rw [typed_outputOf htyped, typed_outputOf htyped, hagree.veiled_eq]
    · rw [compiled_outputOf hcompiled default block
          (Compiler.emitted_of_run_compile hemits hpaths hfiles),
        compiled_outputOf hcompiled default' block'
          (Compiler.emitted_of_run_compile hemits hpaths' hfiles'), hagree.veiled_eq]

/-- The hidden code is wrong in the first block and right in the second one. -/
theorem hidden_code_not_shown :
    ∃ (block block' : CodeBlock) (c c₁ c₂ : Compiler LineChecker.State)
      (output output' : BlockOutput),
      block = ⟨"ts".toList, none,
        "// file: t.ts noEmit\nlet t: string = 1\n// file: m.ts\nx".toList, 3⟩ ∧
      block' = ⟨"ts".toList, none, "// file: t.ts noEmit\n\ny\n// file: m.ts\nx".toList, 3⟩ ∧
      Compiler.run (block.compile lineChecker .empty plainSettings ['d'] 1) c =
        (.ok (.compiled output), c₁) ∧
      Compiler.run (block'.compile lineChecker .empty plainSettings ['d'] 1) c =
        (.ok (.compiled output'), c₂) ∧
      output.isOk = false ∧ output'.isOk = true ∧
      output.typed = output'.typed ∧ output.compiled = output'.compiled := by
  let block : CodeBlock :=
    ⟨"ts".toList, none, "// file: t.ts noEmit\nlet t: string = 1\n// file: m.ts\nx".toList, 3⟩
  let block' : CodeBlock :=
    ⟨"ts".toList, none, "// file: t.ts noEmit\n\ny\n// file: m.ts\nx".toList, 3⟩
  let c : Compiler LineChecker.State :=
    ⟨Workspace.ofOptions .empty Table.empty, LineChecker.State.empty⟩
  have hrun : Compiler.run (block.compile lineChecker .empty plainSettings ['d'] 1) c =
      (.ok (.compiled ⟨"d/codeBlock_1".toList, ['x'], ['x'], [⟨['d'], "d/codeBlock_1/t.ts".toList,
        .at 5 5, some 0, "Type 'number' is not assignable to type 'string'.".toList,
        "let t: string = 1\n".toList⟩]⟩), _) := Compiler.run_eq_of_fst_eq (by decide +kernel)
  have hrun' : Compiler.run (block'.compile lineChecker .empty plainSettings ['d'] 1) c =
      (.ok (.compiled ⟨"d/codeBlock_1".toList, ['x'], ['x'], []⟩), _) :=
    Compiler.run_eq_of_fst_eq (by decide +kernel)
  obtain ⟨htyped, hcompiled⟩ := (hidden_checked_not_shown lineChecker plainSettings ['d'] 1).2
    rfl rfl _ LineChecker.emitsBy_lineChecker .empty .empty block block' defaultFileName
    defaultFileName c _ c _ _ _ rfl rfl (by decide) (by decide) hrun hrun'
  exact ⟨block, block', c, _, _, _, _, rfl, rfl, hrun, hrun', rfl, rfl, htyped, hcompiled⟩

end CodeBlock

end FencedCode
