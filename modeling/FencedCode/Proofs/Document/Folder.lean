import FencedCode.Proofs.Compiler.Snapshot
import FencedCode.Proofs.Document.Failure
import FencedCode.Proofs.Path.Below

/-!
# Where a block writes

A block writes its files under the names in its directives, which are read from its folder. A name
may lead out of the folder, and then the block writes there, over a file of another block or in
place of a file on disk. All that a block changes lies below its folder exactly when each name comes
back into the folder, or finds the text that the block writes there.
-/

namespace FencedCode

theorem parts_blockName (index : Nat) :
    Path.parts ("codeBlock_".toList ++ Text.ofNat index) =
      ["codeBlock_".toList ++ Text.ofNat index] := by
  have hnotMem {c : Char} (hc : c.isDigit = false) (hstart : c ∉ "codeBlock_".toList) :
      c ∉ "codeBlock_".toList ++ Text.ofNat index := fun h ↦
    (List.mem_append.mp h).elim hstart (Text.notMem_ofNat hc index)
  have hmap : ("codeBlock_".toList ++ Text.ofNat index).map Path.separator =
      "codeBlock_".toList ++ Text.ofNat index := by
    refine (List.map_congr_left (g := id) fun c hc ↦ if_neg ?_).trans (List.map_id _)
    rintro rfl
    exact hnotMem (by decide) (by decide) hc
  rw [Path.parts, hmap]
  exact List.splitOn_eq_singleton (hnotMem (by decide) (by decide))

/-- The folder of a block has a name of its own, whatever the folder of its document is. -/
theorem stack_blockFolder (settings : Settings) (document : Text) (index : Nat) :
    ∃ lower, Path.stack (blockFolder settings document index) =
      ("codeBlock_".toList ++ Text.ofNat index) :: lower := by
  have hfolder : blockFolder settings document index =
      settings.root document ++ '/' :: ("codeBlock_".toList ++ Text.ofNat index) := by
    simp [blockFolder]
  have hnamed : ¬ ("codeBlock_".toList ++ Text.ofNat index = [] ∨
      "codeBlock_".toList ++ Text.ofNat index = Path.dot) := by
    simp [Path.dot]
  rw [hfolder, Path.stack, Path.parts_append_slash, parts_blockName, Path.walk,
    List.foldl_append, List.foldl_cons, List.foldl_nil,
    Path.push_of_ne hnamed (by simp [Path.dotDot])]
  exact ⟨_, rfl⟩

namespace CodeBlock

variable {σ : Type} (checker : Checker σ) (fs : FileSystem) (settings : Settings)
  (document : Text) (index : Nat)

/-- What a block writes, in order. A block that is skipped writes nothing. -/
def writes (block : CodeBlock) : List (Text × Text) :=
  match block.compiledName? with
  | none => []
  | some default => (sources settings document index default block).writes

theorem overlay_run_compile (block : CodeBlock) (c : Compiler σ) :
    (Compiler.run (block.compile checker fs settings document index) c).2.workspace.overlay =
      c.workspace.overlay.writeAll (block.writes settings document index) := by
  unfold compile writes
  cases hname : block.compiledName? with
  | none => rfl
  | some default =>
    have hoverlay := Compiler.overlay_run_compile checker fs
      (sources settings document index default block) c
    dsimp only
    rw [Compiler.run_bind, ← hoverlay, sources]
    rcases Compiler.run (Compiler.compile checker fs
      (FileSet.ofBlock (blockFolder settings document index) default block.value)) c with
      ⟨_ | _, _⟩
    · rfl
    · rfl

theorem mem_writes_iff {block : CodeBlock} {e : Text × Text} :
    e ∈ block.writes settings document index ↔ ∃ default name file,
      block.compiledName? = some default ∧
      (sources settings document index default block).get?
        (blockPath (blockFolder settings document index) name) = some file ∧
      e = (blockPath (blockFolder settings document index) name, fillEmptyLines file.code) := by
  constructor
  · intro he
    unfold writes at he
    split at he
    · exact absurd he List.not_mem_nil
    · rename_i default hdefault
      obtain ⟨⟨key, file⟩, hd, rfl⟩ := List.mem_map.mp he
      have hkey := FileSet.forall_mem_entries_ofBlock
        (P := fun e ↦ ∃ name, e.1 = blockPath (blockFolder settings document index) name)
        ⟨_, rfl⟩ (fun _ _ ↦ ⟨_, rfl⟩) _ hd
      obtain ⟨name, rfl⟩ := hkey
      exact ⟨default, name, file, hdefault, Table.get?_eq_some_iff.mpr hd, rfl⟩
  · rintro ⟨default, name, file, hdefault, hfile, rfl⟩
    simp only [writes, hdefault]
    exact List.mem_map.mpr ⟨_, Table.get?_eq_some_iff.mp hfile, rfl⟩

/-- All entries that a block creates or changes lie below its folder exactly when every file whose
text is not there yet has a name that returns below the folder. -/
theorem forall_changed_isBelow_iff (block : CodeBlock) (c : Compiler σ) :
    (∀ key, (Compiler.run (block.compile checker fs settings document index)
        c).2.workspace.overlay.files.get? key ≠ c.workspace.overlay.files.get? key →
      Path.IsBelow (blockFolder settings document index) key) ↔
    ∀ default name file, block.compiledName? = some default →
      (sources settings document index default block).get?
        (blockPath (blockFolder settings document index) name) = some file →
      c.workspace.overlay.text? (blockPath (blockFolder settings document index) name) =
          some (fillEmptyLines file.code) ∨
        Path.ReturnsBelow (blockFolder settings document index) name := by
  obtain ⟨lower, hstack⟩ := stack_blockFolder settings document index
  have htop : "codeBlock_".toList ++ Text.ofNat index ≠ Path.dotDot := by simp [Path.dotDot]
  rw [overlay_run_compile]
  simp only [Overlay.get?_files_writeAll_ne_iff, mem_writes_iff,
    ← Path.isBelow_normalize_iff hstack htop]
  constructor
  · intro h default name file hdefault hfile
    rw [or_iff_not_imp_left]
    intro htext
    exact h _ ⟨_, ⟨default, name, file, hdefault, hfile, rfl⟩, rfl, htext⟩
  · rintro h _ ⟨_, ⟨default, name, file, hdefault, hfile, rfl⟩, rfl, htext⟩
    exact (h default name file hdefault hfile).resolve_left htext

/-- The name leads out of the folder of the block and of its document, to a file of a project. -/
theorem changed_not_isBelow :
    (Compiler.run (compile (Compiler.steadyChecker []) .empty
        ⟨⟨0⟩, none, none, Table.empty, none, none, none⟩ "/docs/a.md".toList 1
        ⟨"ts".toList, none, "// file: ../../../src/util.ts\nx".toList, 1⟩)
      ⟨Workspace.ofOptions .empty Table.empty, ()⟩).2.workspace.overlay.files.get?
        "/src/util.ts".toList ≠
      (Workspace.ofOptions .empty Table.empty).overlay.files.get? "/src/util.ts".toList ∧
    ¬ Path.IsBelow (blockFolder ⟨⟨0⟩, none, none, Table.empty, none, none, none⟩
      "/docs/a.md".toList 1) "/src/util.ts".toList := by
  rw [overlay_run_compile]
  decide

end CodeBlock

end FencedCode
