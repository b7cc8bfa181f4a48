import FencedCode.Proofs.Compiler.Answer
import FencedCode.Proofs.Compiler.Call
import FencedCode.Proofs.Document.Failure

/-!
# What failures are attributed to

A failure is made of a diagnostic and of the file that was being compiled when it was reported. The
diagnostic may lie in another file: a file that the compiled one imports, or a file of options. Its
line is then counted in that other file, but the failure has the name and the code of the compiled
file, and its line in the document is counted from where the compiled file begins. So it never
points into another file of the block, and it points at an unrelated row of the compiled file
whenever this has enough rows.
-/

namespace FencedCode

open Text

/-- The line of a placed diagnostic is the line of its offset in the text of the file it names. -/
theorem RawDiagnostic.position?_placed {raw : RawDiagnostic} {other : Text} {offset : Nat}
    (hfile : raw.file = some other) (hstart : raw.start = some offset)
    (text? : Text → Option Text) :
    (raw.placed text?).position? = (text? other).map (Position.ofOffset · offset) := by
  rw [placed, hfile, Option.bind_some]
  cases text? other with
  | none => rfl
  | some text =>
    simp only [Diagnostic.ofRaw, hfile, hstart, Diagnostic.position?, Option.map_some]

theorem RawDiagnostic.message_placed (raw : RawDiagnostic) (text? : Text → Option Text) :
    (raw.placed text?).message = raw.message.flatten ['\n'] := by
  unfold placed
  split
  · unfold Diagnostic.ofRaw
    dsimp only
    split <;> rfl
  · rfl

namespace CodeBlock

/-! ## The output of a block -/

section Output

variable (settings : Settings) (document : Text) (index : Nat) (default : Text) (block : CodeBlock)

/-- The first line of each file in the text of the block. -/
def starts : Table Text Nat :=
  startLines (blockFolder settings document index) default block.value

/-- The output of the block when its files are compiled to these. -/
def outputOf (compiled : CompiledFiles) : BlockOutput where
  folder := blockFolder settings document index
  typed := listing (blockFolder settings document index)
    (settings.typedVariant (sources settings document index default block) document).values
  compiled := listing (blockFolder settings document index)
    (settings.compiledVariant compiled.emitted document).values
  failures := failures document block (blockFolder settings document index) default
    (sources settings document index default block) compiled

/-- The failure for a diagnostic that is reported while the file at the path is compiled. -/
def failureFor (path : Text) (d : Diagnostic) : Failure :=
  failure document block path
    ((((sources settings document index default block).get? path).map (·.code)).getD [])
    (((starts settings document index default block).get? path).getD 0) d

variable {settings document index default block}

theorem exists_starts {path : Text}
    (h : path ∈ (sources settings document index default block).keys) :
    ∃ file start, (sources settings document index default block).get? path = some file ∧
      (starts settings document index default block).get? path = some start := by
  rw [← Table.contains_iff] at h
  obtain ⟨file, hfile⟩ := Option.isSome_iff_exists.mp h
  obtain ⟨before, hbehind, rfl⟩ := FileSet.exists_fileBehind hfile
  exact ⟨file, lineFeeds before, hfile, hbehind.get?_startLines⟩

variable {σ : Type} {checker : Checker σ} {fs : FileSystem} {c c' : Compiler σ}

theorem exists_outputOf {outcome : BlockOutcome} (hname : block.compiledName? = some default)
    (hrun : Compiler.run (block.compile checker fs settings document index) c =
      (.ok outcome, c')) :
    ∃ compiled,
      Compiler.run (Compiler.compile checker fs (sources settings document index default block)) c =
        (.ok compiled, c') ∧
      outcome = .compiled (outputOf settings document index default block compiled) := by
  unfold compile at hrun
  simp only [hname] at hrun
  rw [Compiler.run_bind_eq_ok_iff] at hrun
  obtain ⟨compiled, _, hcompiled, hrun⟩ := hrun
  obtain ⟨rfl, rfl⟩ := Compiler.run_pure_eq_ok_iff.mp hrun
  exact ⟨compiled, hcompiled, rfl⟩

/-- There is one failure for each diagnostic, in the order of the files and of the answers. -/
theorem failures_outputOf (answers : Text → Compiler.Answers) (after : Text → Compiler σ) :
    (outputOf settings document index default block
      ((sources settings document index default block).map fun path file ↦
        Compiler.resultOf fs path file (answers path) (after path))).failures =
      (sources settings document index default block).keys.flatMap fun path ↦
        (answers path).diagnostics.map fun raw ↦ failureFor settings document index default block
          path (raw.placed ((after path).workspace.text? fs)) := by
  simp only [outputOf, failures, Table.map, Table.keys, List.flatMap_map, Compiler.resultOf,
    List.map_map]
  rfl

end Output

/-! ## Diagnostics of other files -/

section Other

variable (settings : Settings) (document : Text) (index : Nat) (default : Text) (block : CodeBlock)

/-- The failure is about the file, at the line on which the offset lies in it. -/
def PointsInto (path : Text) (offset : Nat) (f : Failure) : Prop :=
  ∃ file start line column, (sources settings document index default block).get? path = some file ∧
    (starts settings document index default block).get? path = some start ∧
    line = lineFeedsWithin (fillEmptyLines file.code) offset ∧
    f = ⟨document, path, .at (block.startLine + 1 + start + line) column, some line, f.message,
      file.code⟩

/-- The failure points at a row of the file in the document. -/
def StandsIn (path : Text) (f : Failure) : Prop :=
  ∃ file start line column, (sources settings document index default block).get? path = some file ∧
    (starts settings document index default block).get? path = some start ∧
    line < (rows file.code).length ∧
    f.location = .at (block.startLine + 1 + start + line) column

variable {settings document index default block} {path other : Text} {raw : RawDiagnostic}
  {offset : Nat}

theorem failureFor_placed (hfile : raw.file = some other) (hstart : raw.start = some offset)
    {file : SourceFile} {start : Nat}
    (hget : (sources settings document index default block).get? path = some file)
    (hbegin : (starts settings document index default block).get? path = some start)
    (text? : Text → Option Text) :
    failureFor settings document index default block path (raw.placed text?) =
      ⟨document, path,
        match text? other with
        | some text => .at (block.startLine + 1 + start + lineFeedsWithin text offset)
            ((Position.ofOffset text offset).character + 1)
        | none => .block block.startLine,
        (text? other).map (lineFeedsWithin · offset), raw.message.flatten ['\n'], file.code⟩ := by
  simp only [failureFor, failure, hget, hbegin, raw.message_placed,
    RawDiagnostic.position?_placed hfile hstart, Option.map_some, Option.getD_some]
  cases text? other with
  | none => rfl
  | some text => simp only [Option.map_some, Position.line_ofOffset]

/-- The failure stands in the compiled file exactly when the other text is at hand and its line is
one that the compiled file has, too. -/
theorem standsIn_failureFor_iff (hfile : raw.file = some other) (hstart : raw.start = some offset)
    {file : SourceFile} {start : Nat}
    (hget : (sources settings document index default block).get? path = some file)
    (hbegin : (starts settings document index default block).get? path = some start)
    (text? : Text → Option Text) :
    StandsIn settings document index default block path
        (failureFor settings document index default block path (raw.placed text?)) ↔
      ∃ text, text? other = some text ∧ lineFeedsWithin text offset < (rows file.code).length := by
  rw [failureFor_placed hfile hstart hget hbegin]
  unfold StandsIn
  simp only [hget, hbegin, Option.some_inj]
  cases text? other with
  | none => simp
  | some text =>
    constructor
    · rintro ⟨_, _, line, column, rfl, rfl, hline, hlocation⟩
      have heq := (Location.at.inj hlocation).1
      refine ⟨text, rfl, ?_⟩
      omega
    · rintro ⟨_, hsame, hline⟩
      obtain rfl := Option.some.inj hsame
      exact ⟨file, start, _, _, rfl, rfl, hline, rfl⟩

end Other

/-- A failure whose diagnostic lies in another file than the one being compiled has the name and the
code of the compiled file, with the line in the other one. It does not point into the other file,
when that belongs to the block. It keeps off the rows of the compiled file exactly when the other
text is not at hand, or when the line is behind the last of these rows. -/
theorem failure_of_other_file {σ : Type} (checker : Checker σ) (fs : FileSystem)
    (settings : Settings) (document : Text) (index : Nat) (block : CodeBlock) (default : Text)
    (c c' : Compiler σ) (outcome : BlockOutcome) (hname : block.compiledName? = some default)
    (hrun : Compiler.run (block.compile checker fs settings document index) c =
      (.ok outcome, c')) :
    ∃ (output : BlockOutput) (answers : Text → Compiler.Answers) (after : Text → Compiler σ)
      (failureOf : Text → RawDiagnostic → Failure), outcome = .compiled output ∧
      (∀ path ∈ (sources settings document index default block).keys, Compiler.Learns checker fs
        (sources settings document index default block) c path (answers path) (after path)) ∧
      output.failures = ((sources settings document index default block).keys.flatMap fun path ↦
        (answers path).diagnostics.map (failureOf path)) ∧
      ∀ path file, (sources settings document index default block).get? path = some file →
        ∀ raw ∈ (answers path).diagnostics, ∀ other offset, raw.file = some other →
          raw.start = some offset → other ≠ path →
          (failureOf path raw).sourcePath = path ∧ (failureOf path raw).source = file.code ∧
          (failureOf path raw).fileLine =
            ((after path).workspace.text? fs other).map (lineFeedsWithin · offset) ∧
          (other ∈ (sources settings document index default block).keys →
            ¬ PointsInto settings document index default block other offset
              (failureOf path raw)) ∧
          (¬ StandsIn settings document index default block path (failureOf path raw) ↔
            ∀ text, (after path).workspace.text? fs other = some text →
              (rows file.code).length ≤ lineFeedsWithin text offset) := by
  obtain ⟨compiled, hcompiled, houtcome⟩ := exists_outputOf hname hrun
  obtain ⟨answers, after, hlearns, rfl⟩ := Compiler.exists_answers hcompiled
  refine ⟨_, answers, after, _, houtcome, hlearns, failures_outputOf answers after, ?_⟩
  intro path file hget raw _ other offset hfile hstart hother
  have hkey : path ∈ (sources settings document index default block).keys := by
    rw [← Table.contains_iff, Table.contains, hget, Option.isSome_some]
  obtain ⟨_, start, -, hbegin⟩ := exists_starts hkey
  have hfailure := failureFor_placed hfile hstart hget hbegin ((after path).workspace.text? fs)
  have hpath := congrArg Failure.sourcePath hfailure
  refine ⟨hpath, congrArg Failure.source hfailure, congrArg Failure.fileLine hfailure, ?_, ?_⟩
  · rintro - ⟨_, _, _, _, -, -, -, hpoints⟩
    exact hother ((congrArg Failure.sourcePath hpoints).symm.trans hpath)
  · rw [standsIn_failureFor_iff hfile hstart hget hbegin]
    simp only [not_exists, not_and, Nat.not_lt]

/-! ## Two failures -/

/-- Settings that leave everything as it is. -/
def plainSettings : Settings := ⟨⟨0⟩, none, none, Table.empty, none, none, none⟩

/-- A checker that emits nothing and reports something of one file only. -/
def reportingChecker (path : Text) (raws : List RawDiagnostic) : Checker Unit where
  emit _ := pure []
  optionDiagnostics := pure []
  syntaxDiagnostics _ := pure []
  typeDiagnostics key := pure (if key = path then raws else [])

theorem eq_of_answered_reportingChecker {path : Text} {raws : List RawDiagnostic} {fs : FileSystem}
    {start after : Compiler Unit} {a : Compiler.Answers}
    (h : Compiler.Answered (reportingChecker path raws) fs path start a after) :
    a = ⟨[], [], [], raws⟩ ∧ after = start := by
  obtain ⟨c₁, c₂, c₃, hemit, hoptions, hparens, htypes⟩ := h
  have hreport : (reportingChecker path raws).typeDiagnostics path = pure raws :=
    congrArg pure (if_pos rfl)
  rw [hreport] at htypes
  obtain ⟨hemitted, rfl⟩ := Prod.mk.inj (hemit.symm.trans (Compiler.run_call_pure fs [] start))
  obtain ⟨hoptions, rfl⟩ := Prod.mk.inj (hoptions.symm.trans (Compiler.run_call_pure fs [] c₁))
  obtain ⟨hparens, rfl⟩ := Prod.mk.inj (hparens.symm.trans (Compiler.run_call_pure fs [] c₂))
  obtain ⟨htypes, rfl⟩ := Prod.mk.inj (htypes.symm.trans (Compiler.run_call_pure fs raws c₃))
  obtain ⟨emitted, ofOptions, ofSyntax, ofTypes⟩ := a
  cases hemitted
  cases hoptions
  cases hparens
  cases htypes
  exact ⟨rfl, rfl⟩

/-- A diagnostic in a file of options is reported while the only file of the block is compiled. The
failure stands in the second row of that file. -/
theorem failure_of_configuration :
    ∃ (block : CodeBlock) (raw : RawDiagnostic) (fs : FileSystem)
      (c c' : Compiler Unit) (output : BlockOutput) (failure : Failure),
      block.compiledName? = some defaultFileName ∧
      Compiler.run (compile (reportingChecker "d/codeBlock_1/index.ts".toList [raw]) fs
        plainSettings ['d'] 1 block) c = (.ok (.compiled output), c') ∧
      raw.file = some "/tsconfig.json".toList ∧ output.failures = [failure] ∧
      failure.fileLine = some 1 ∧ StandsIn plainSettings ['d'] 1 defaultFileName block
        "d/codeBlock_1/index.ts".toList failure := by
  let path : Text := "d/codeBlock_1/index.ts".toList
  let block : CodeBlock := ⟨"ts".toList, none, "x\ny".toList, 3⟩
  let raw : RawDiagnostic := ⟨some "/tsconfig.json".toList, some 2, 1, 1, .text ['e']⟩
  let fs : FileSystem := ⟨fun _ ↦ true, fun _ ↦ true, fun _ ↦ some "y\nz".toList, fun _ ↦ none⟩
  let c : Compiler Unit := ⟨Workspace.ofOptions .empty Table.empty, ()⟩
  let files := sources plainSettings ['d'] 1 defaultFileName block
  let checker := reportingChecker path [raw]
  have hrun : Compiler.run (compile checker fs plainSettings ['d'] 1 block) c =
      (.ok (.compiled ⟨"d/codeBlock_1".toList, "x\ny".toList, [],
        [⟨['d'], path, .at 5 1, some 1, ['e'], "x\ny".toList⟩]⟩), _) :=
    Compiler.run_eq_of_fst_eq (by decide +kernel)
  obtain ⟨output, answers, after, failureOf, houtput, hlearns, hfailures, hall⟩ :=
    failure_of_other_file checker fs plainSettings ['d'] 1 block defaultFileName c _ _ rfl hrun
  obtain rfl := BlockOutcome.compiled.inj houtput
  obtain ⟨start, hreaches, hanswered⟩ := hlearns path (by decide)
  obtain ⟨hanswers, hafter⟩ := eq_of_answered_reportingChecker hanswered
  have hentries : files.entries = [(path, ⟨path, "x\ny".toList, false⟩)] := by decide
  rw [hreaches.eq_of_entries_eq_singleton hentries] at hafter
  have hdiagnostics : (answers path).diagnostics = [raw] := by rw [hanswers]; rfl
  have hkeys : files.keys = [path] := by decide
  obtain ⟨-, -, hline, -, hstands⟩ := hall path ⟨path, "x\ny".toList, false⟩ (by decide) raw
    (by rw [hdiagnostics]; exact List.mem_cons_self) "/tsconfig.json".toList 2 rfl rfl (by decide)
  have htext : (after path).workspace.text? fs "/tsconfig.json".toList = some "y\nz".toList := by
    rw [hafter]
    decide
  have hwithin : lineFeedsWithin "y\nz".toList 2 = 1 := by
    rw [← Position.line_ofOffset]
    decide
  refine ⟨block, raw, fs, c, _, _, failureOf path raw, rfl, hrun, rfl, ?_, ?_, ?_⟩
  · rw [hfailures]
    show files.keys.flatMap _ = _
    rw [hkeys, List.flatMap_singleton, hdiagnostics, List.map_singleton]
  · rw [hline, htext, Option.map_some, hwithin]
  · by_contra hnot
    have hrows := hstands.mp hnot _ htext
    rw [hwithin] at hrows
    exact absurd hrows (by decide)

/-- While `b.ts` is compiled something is reported of `a.ts`. The failure has the name and the code
of `b.ts`, and a line of the document that is none of `a.ts`. -/
theorem failure_not_pointsInto :
    ∃ (block : CodeBlock) (raw : RawDiagnostic) (c c' : Compiler Unit)
      (output : BlockOutput) (a : Compiler.Answers) (after : Compiler Unit) (failure : Failure),
      block = ⟨"ts".toList, none, "// file: a.ts\nx\ny\n// file: b.ts\nz".toList, 3⟩ ∧
      Compiler.run (compile (reportingChecker "d/codeBlock_1/b.ts".toList [raw]) .empty
        plainSettings ['d'] 1 block) c = (.ok (.compiled output), c') ∧
      Compiler.Learns (reportingChecker "d/codeBlock_1/b.ts".toList [raw]) .empty
        (sources plainSettings ['d'] 1 defaultFileName block) c "d/codeBlock_1/b.ts".toList a
        after ∧
      raw ∈ a.diagnostics ∧ raw.file = some "d/codeBlock_1/a.ts".toList ∧ raw.start = some 2 ∧
      "d/codeBlock_1/a.ts".toList ∈ (sources plainSettings ['d'] 1 defaultFileName block).keys ∧
      output.failures = [failure] ∧ ¬ PointsInto plainSettings ['d'] 1 defaultFileName block
        "d/codeBlock_1/a.ts".toList 2 failure := by
  let block : CodeBlock :=
    ⟨"ts".toList, none, "// file: a.ts\nx\ny\n// file: b.ts\nz".toList, 3⟩
  let raw : RawDiagnostic := ⟨some "d/codeBlock_1/a.ts".toList, some 2, 1, 1, .text ['e']⟩
  let c : Compiler Unit := ⟨Workspace.ofOptions .empty Table.empty, ()⟩
  let checker := reportingChecker "d/codeBlock_1/b.ts".toList [raw]
  let failure : Failure :=
    ⟨['d'], "d/codeBlock_1/b.ts".toList, .at 9 1, some 1, ['e'], ['z']⟩
  let output : BlockOutput :=
    ⟨"d/codeBlock_1".toList, "// file: a.ts\nx\ny\n\n\n// file: b.ts\nz".toList,
      "// file: a.js\n\n\n\n// file: b.js\n".toList, [failure]⟩
  have hrun : Compiler.run (compile checker .empty plainSettings ['d'] 1 block) c =
      (.ok (.compiled output), _) := Compiler.run_eq_of_fst_eq (by decide +kernel)
  have hname : block.compiledName? = some defaultFileName := rfl
  obtain ⟨compiled, hcompiled, -⟩ := exists_outputOf hname hrun
  obtain ⟨answers, after, hlearns, -⟩ := Compiler.exists_answers hcompiled
  have hlearns := hlearns "d/codeBlock_1/b.ts".toList (by decide)
  have hraw : raw ∈ (answers "d/codeBlock_1/b.ts".toList).diagnostics := by
    obtain ⟨_, -, hanswered⟩ := hlearns
    rw [(eq_of_answered_reportingChecker hanswered).1]
    exact List.mem_cons_self
  refine ⟨block, raw, c, _, output, _, _, failure, rfl, hrun, hlearns, hraw, rfl, rfl,
    by decide, rfl, ?_⟩
  rintro ⟨_, _, _, _, -, -, -, hpoints⟩
  have hpath : "d/codeBlock_1/b.ts".toList = "d/codeBlock_1/a.ts".toList :=
    congrArg Failure.sourcePath hpoints
  exact absurd hpath (by decide)

end CodeBlock

end FencedCode
