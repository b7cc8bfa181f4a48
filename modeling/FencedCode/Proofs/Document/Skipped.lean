import FencedCode.Proofs.Document.Attribution
import Mathlib.Data.List.Forall2

/-!
# Skipped blocks

A block in another language, or one with the tag of blocks that are left alone, is skipped: nothing
is asked or written for it, but it is counted. So a document comes out the same, and leaves the same
compiler behind, whatever stands in the place of its skipped blocks. The folder of a block and its
variant as it was written are made from the block, its number and the settings alone, so no checker
and no other block can change them.
-/

namespace FencedCode

namespace CodeBlock

/-- In a language that is not compiled, or with the tag of blocks that are left alone. -/
def IsSkipped (block : CodeBlock) : Prop :=
  (block.lang ≠ "ts".toList ∧ block.lang ≠ "tsx".toList) ∨
    ∃ info, block.info = some info ∧ BlockTags.leaveAlone ∈ Text.words info

theorem isLeftAlone_ofInfo_iff {info : Option Text} :
    (BlockTags.ofInfo info).isLeftAlone ↔
      ∃ text, info = some text ∧ BlockTags.leaveAlone ∈ Text.words text := by
  cases info <;> simp [BlockTags.ofInfo, BlockTags.isLeftAlone, BlockTags.contains]

theorem defaultName?_eq_none_iff {block : CodeBlock} :
    block.defaultName? = none ↔ block.lang ≠ "ts".toList ∧ block.lang ≠ "tsx".toList := by
  unfold defaultName?
  by_cases hts : block.lang = "ts".toList
  · rw [if_pos hts]
    exact iff_of_false (Option.some_ne_none _) fun h ↦ h.1 hts
  · rw [if_neg hts]
    by_cases htsx : block.lang = "tsx".toList
    · rw [if_pos htsx]
      exact iff_of_false (Option.some_ne_none _) fun h ↦ h.2 htsx
    · rw [if_neg htsx]
      exact iff_of_true rfl ⟨hts, htsx⟩

theorem compiledName?_eq_none_iff {block : CodeBlock} :
    block.compiledName? = none ↔ block.IsSkipped := by
  rw [IsSkipped, ← isLeftAlone_ofInfo_iff, ← defaultName?_eq_none_iff]
  unfold compiledName?
  split <;> simp_all

/-- The same block, or both are skipped. -/
def Alike (block other : CodeBlock) : Prop := block = other ∨ block.IsSkipped ∧ other.IsSkipped

section Compile

variable {σ : Type} (checker : Checker σ) (fs : FileSystem) (settings : Settings)
  (document : Text) (index : Nat)

theorem compile_of_isSkipped {block : CodeBlock} (h : block.IsSkipped) :
    block.compile checker fs settings document index = pure .skipped := by
  simp only [compile, compiledName?_eq_none_iff.mpr h]

theorem Alike.compile_eq {block other : CodeBlock} (h : Alike block other) :
    block.compile checker fs settings document index =
      other.compile checker fs settings document index := by
  rcases h with rfl | ⟨hblock, hother⟩
  · rfl
  · rw [compile_of_isSkipped _ _ _ _ _ hblock, compile_of_isSkipped _ _ _ _ _ hother]

end Compile

/-- The folder of a block that is compiled, and its variant as it was written. -/
def written? (settings : Settings) (document : Text) (index : Nat) (block : CodeBlock) :
    Option (Text × Text) :=
  block.compiledName?.map fun default ↦
    (blockFolder settings document index, listing (blockFolder settings document index)
      (settings.typedVariant (sources settings document index default block) document).values)

end CodeBlock

/-- What an outcome shows of a block that was compiled without its compiled variant: the folder and
the variant as it was written. -/
def BlockOutcome.written? : BlockOutcome → Option (Text × Text)
  | .skipped => none
  | .compiled output => some (output.folder, output.typed)

theorem BlockOutcome.written?_eq_none_iff {outcome : BlockOutcome} :
    outcome.written? = none ↔ outcome = .skipped := by
  cases outcome <;> simp [written?]

theorem BlockOutcome.written?_eq_some_iff {outcome : BlockOutcome} {folder typed : Text} :
    outcome.written? = some (folder, typed) ↔
      ∃ output, outcome = .compiled output ∧ output.folder = folder ∧ output.typed = typed := by
  cases outcome <;> simp [written?]

section Run

variable {σ : Type} {checker : Checker σ} {fs : FileSystem} {settings : Settings}
  {document : Text} {c c' : Compiler σ}

theorem CodeBlock.written?_of_run_compile {block : CodeBlock} {index : Nat} {outcome : BlockOutcome}
    (hrun : Compiler.run (block.compile checker fs settings document index) c =
      (.ok outcome, c')) : outcome.written? = block.written? settings document index := by
  cases hname : block.compiledName? with
  | none =>
    rw [compile_of_isSkipped _ _ _ _ _ (compiledName?_eq_none_iff.mp hname)] at hrun
    obtain ⟨rfl, -⟩ := Compiler.run_pure_eq_ok_iff.mp hrun
    rw [written?, hname]
    rfl
  | some default =>
    obtain ⟨compiled, -, rfl⟩ := exists_outputOf hname hrun
    rw [written?, hname]
    rfl

namespace Document

theorem compileFrom_of_alike {blocks others : List CodeBlock}
    (h : List.Forall₂ CodeBlock.Alike blocks others) (index : Nat) :
    compileFrom checker fs settings document index blocks =
      compileFrom checker fs settings document index others := by
  induction h generalizing index with
  | nil => rfl
  | cons halike _ ih => rw [compileFrom, compileFrom, halike.compile_eq, ih]

/-- A run that succeeds shows every block as the block and its number say. -/
theorem written?_of_run_compileFrom {blocks : List CodeBlock} {index : Nat}
    {outcomes : List BlockOutcome}
    (hrun : Compiler.run (compileFrom checker fs settings document index blocks) c =
      (.ok outcomes, c')) :
    outcomes.map BlockOutcome.written? =
      (blocks.zipIdx index).map fun (block, i) ↦ block.written? settings document i := by
  induction blocks generalizing index outcomes c with
  | nil =>
    obtain ⟨rfl, -⟩ := Compiler.run_pure_eq_ok_iff.mp hrun
    rfl
  | cons block blocks ih =>
    rw [compileFrom, Compiler.run_bind_eq_ok_iff] at hrun
    obtain ⟨outcome, middle, hblock, hrun⟩ := hrun
    obtain ⟨rest, _, hrest, hrun⟩ := Compiler.run_bind_eq_ok_iff.mp hrun
    obtain ⟨rfl, rfl⟩ := Compiler.run_pure_eq_ok_iff.mp hrun
    rw [List.map_cons, List.zipIdx_cons, List.map_cons, ih hrest,
      CodeBlock.written?_of_run_compile hblock]

theorem exists_outcome_of_run_compile {blocks : List CodeBlock} {outcomes : List BlockOutcome}
    (hrun : Compiler.run (compile checker fs settings document blocks) c = (.ok outcomes, c'))
    {i : Nat} {block : CodeBlock} (hblock : blocks[i]? = some block) :
    ∃ outcome, outcomes[i]? = some outcome ∧
      outcome.written? = block.written? settings document (i + 1) := by
  have hall := congrArg (·[i]?) (written?_of_run_compileFrom hrun)
  simp only [List.getElem?_map, List.getElem?_zipIdx, hblock, Option.map_some,
    Option.map_eq_some_iff] at hall
  rwa [Nat.add_comm 1 i] at hall

/-- Two runs that succeed show a block alike when it has the same place in both. -/
theorem outcomes_of_run_compile {τ : Type} {checker' : Checker τ} {fs' : FileSystem}
    {d d' : Compiler τ} {blocks others : List CodeBlock} {outcomes outcomes' : List BlockOutcome}
    (hrun : Compiler.run (compile checker fs settings document blocks) c = (.ok outcomes, c'))
    (hrun' : Compiler.run (compile checker' fs' settings document others) d = (.ok outcomes', d'))
    {i : Nat} {block : CodeBlock} (hblock : blocks[i]? = some block)
    (hother : others[i]? = some block) :
    (block.IsSkipped ∧ outcomes[i]? = some .skipped ∧ outcomes'[i]? = some .skipped) ∨
      ¬ block.IsSkipped ∧ ∃ output output', outcomes[i]? = some (.compiled output) ∧
        outcomes'[i]? = some (.compiled output') ∧
        output.folder = settings.root document ++ "/codeBlock_".toList ++ Text.ofNat (i + 1) ∧
        output'.folder = output.folder ∧ output'.typed = output.typed := by
  obtain ⟨outcome, hi, hshown⟩ := exists_outcome_of_run_compile hrun hblock
  obtain ⟨outcome', hi', hshown'⟩ := exists_outcome_of_run_compile hrun' hother
  rw [hi, hi', ← CodeBlock.compiledName?_eq_none_iff]
  unfold CodeBlock.written? at hshown hshown'
  cases hname : block.compiledName? with
  | none =>
    rw [hname, Option.map_none, BlockOutcome.written?_eq_none_iff] at hshown hshown'
    exact .inl ⟨rfl, congrArg some hshown, congrArg some hshown'⟩
  | some default =>
    rw [hname, Option.map_some, BlockOutcome.written?_eq_some_iff] at hshown hshown'
    obtain ⟨output, rfl, hfolder, htyped⟩ := hshown
    obtain ⟨output', rfl, hfolder', htyped'⟩ := hshown'
    exact .inr ⟨Option.some_ne_none default, output, output', rfl, rfl, hfolder,
      hfolder'.trans hfolder.symm, htyped'.trans htyped.symm⟩

end Document

end Run

namespace Document

/-- What stands in the place of skipped blocks makes no difference to a document: not to the
outcomes, or to the error that it ends with, and not to the compiler that is left behind. A block is
skipped, or has the folder of its number and one variant as written, in every run that succeeds. -/
theorem skipped_makes_no_difference :
    (∀ {σ : Type} (checker : Checker σ) (fs : FileSystem) (settings : Settings) (document : Text)
        (blocks others : List CodeBlock), List.Forall₂ CodeBlock.Alike blocks others →
      ∀ c, Compiler.run (compile checker fs settings document blocks) c =
        Compiler.run (compile checker fs settings document others) c) ∧
    ∀ {σ τ : Type} (checker : Checker σ) (checker' : Checker τ) (fs fs' : FileSystem)
      (settings : Settings) (document : Text) (blocks others : List CodeBlock)
      (c c' : Compiler σ) (d d' : Compiler τ) (outcomes outcomes' : List BlockOutcome),
      Compiler.run (compile checker fs settings document blocks) c = (.ok outcomes, c') →
      Compiler.run (compile checker' fs' settings document others) d = (.ok outcomes', d') →
      ∀ i block, blocks[i]? = some block → others[i]? = some block →
        (block.IsSkipped ∧ outcomes[i]? = some .skipped ∧ outcomes'[i]? = some .skipped) ∨
          ¬ block.IsSkipped ∧ ∃ output output', outcomes[i]? = some (.compiled output) ∧
            outcomes'[i]? = some (.compiled output') ∧
            output.folder = settings.root document ++ "/codeBlock_".toList ++ Text.ofNat (i + 1) ∧
            output'.folder = output.folder ∧ output'.typed = output.typed := by
  refine ⟨?_, ?_⟩
  · intro σ checker fs settings document blocks others halike c
    rw [compile, compile, compileFrom_of_alike halike]
  · intro σ τ checker checker' fs fs' settings document blocks others c c' d d' outcomes outcomes'
      hrun hrun' i block
    exact outcomes_of_run_compile hrun hrun'

theorem skipped_makes_no_difference_sample :
    let first : List CodeBlock :=
      [⟨"sh".toList, none, "ls".toList, 1⟩, ⟨"ts".toList, none, ['x'], 5⟩]
    let other : List CodeBlock :=
      [⟨"ts".toList, some "no-transpile".toList, "let a".toList, 2⟩, ⟨"ts".toList, none, ['x'], 5⟩]
    let c : Compiler Unit := ⟨Workspace.ofOptions .empty Table.empty, ()⟩
    List.Forall₂ CodeBlock.Alike first other ∧
      Compiler.run (compile (Compiler.steadyChecker []) .empty CodeBlock.plainSettings ['d'] first)
          c =
        Compiler.run (compile (Compiler.steadyChecker []) .empty CodeBlock.plainSettings ['d'] other)
          c ∧
      ∃ outcomes output, (Compiler.run (compile (Compiler.steadyChecker []) .empty
          CodeBlock.plainSettings ['d'] first) c).1 = .ok outcomes ∧
        outcomes[1]? = some (.compiled output) ∧ output.folder = "d/codeBlock_2".toList := by
  intro first other c
  have halike : List.Forall₂ CodeBlock.Alike first other := by
    refine .cons (.inr ⟨.inl (by decide), .inr ⟨_, rfl, by decide⟩⟩) (.cons (.inl rfl) .nil)
  obtain ⟨hsame, hplaces⟩ := skipped_makes_no_difference
  have hrun : Compiler.run (compile (Compiler.steadyChecker []) .empty CodeBlock.plainSettings ['d']
      first) c = (.ok [.skipped, .compiled ⟨"d/codeBlock_2".toList, ['x'], [], []⟩], _) :=
    Compiler.run_eq_of_fst_eq (by decide +kernel)
  refine ⟨halike, hsame _ _ _ _ _ _ halike c, ?_⟩
  rcases hplaces _ _ _ _ _ _ _ _ _ _ _ _ _ _ hrun hrun 1 _ rfl rfl with
    ⟨-, hskipped, -⟩ | ⟨-, output, -, houtput, -, hfolder, -⟩
  · exact absurd hskipped (by decide)
  · exact ⟨_, output, congrArg Prod.fst hrun, houtput, hfolder⟩

end Document

end FencedCode
