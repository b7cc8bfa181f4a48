import FencedCode.Proofs.Compiler.Call
import FencedCode.Proofs.Compiler.Snapshot

/-!
# What a workspace never loses

Requests write to the overlay, and whoever asks makes the workspace remember texts that it has read
from disk. Nothing of this is ever taken back. So a file that was read once shows the same text
from then on, unless it is written, and a written file is the one it was while its version stays.
-/

namespace FencedCode

namespace Workspace

/-- Writes and questions lead from one workspace to the other. -/
structure GrowsTo (w w' : Workspace) : Prop where
  redirects : w'.redirects = w.redirects
  overlay : ∃ writes, w'.overlay = w.overlay.writeAll writes
  reads : ∀ key text, w.reads.texts.get? key = some text → w'.reads.texts.get? key = some text

variable {w w' w'' : Workspace}

theorem GrowsTo.refl (w : Workspace) : w.GrowsTo w := ⟨rfl, ⟨[], rfl⟩, fun _ _ h ↦ h⟩

theorem GrowsTo.trans (h : w.GrowsTo w') (h' : w'.GrowsTo w'') : w.GrowsTo w'' := by
  obtain ⟨writes, hwrites⟩ := h.overlay
  obtain ⟨others, hothers⟩ := h'.overlay
  refine ⟨h'.redirects.trans h.redirects, ⟨writes ++ others, ?_⟩,
    fun key text hkey ↦ h'.reads key text (h.reads key text hkey)⟩
  rw [hothers, hwrites, Overlay.writeAll_append]

theorem reads_grow (fs : FileSystem) (path : Text) (cache : ReadCache) {key text : Text}
    (h : cache.texts.get? key = some text) :
    (cache.read fs path).2.texts.get? key = some text := by
  unfold ReadCache.read
  split
  · exact h
  · rename_i hnew
    split
    · rw [Table.get?_insert]
      split
      · rename_i hsame
        cases (hsame ▸ hnew).symm.trans h
      · exact h
    · exact h

theorem growsTo_read (fs : FileSystem) (path : Text) (w : Workspace) :
    w.GrowsTo (read fs path w).2 := by
  unfold read
  split
  · exact GrowsTo.refl w
  · exact ⟨rfl, ⟨[], rfl⟩, fun _ _ h ↦ reads_grow fs _ _ h⟩

theorem lastsWhileAsking_growsTo (fs : FileSystem) : LastsWhileAsking fs GrowsTo where
  refl := GrowsTo.refl
  trans := GrowsTo.trans
  read := growsTo_read fs
  memo _ _ := ⟨rfl, ⟨[], rfl⟩, fun _ _ h ↦ h⟩

/-- A file that was read from disk shows the text again, unless it is written. -/
theorem text?_of_cached {path text : Text} (h : ¬ w.isVirtual path)
    (hcached : w.reads.texts.get? (Path.normalize path) = some text) (fs : FileSystem) :
    (read fs path w).1 = some text := by
  have hnone : w.overlay.get? path = none := Option.not_isSome_iff_eq_none.mp h
  rw [read, hnone]
  simp only [ReadCache.read, hcached]

theorem cached_of_read {fs : FileSystem} {path text : Text} (h : ¬ w.isVirtual path)
    (hread : (read fs path w).1 = some text) :
    (read fs path w).2.reads.texts.get? (Path.normalize path) = some text := by
  have hnone : w.overlay.get? path = none := Option.not_isSome_iff_eq_none.mp h
  rw [read, hnone] at hread ⊢
  dsimp only at hread ⊢
  unfold ReadCache.read at hread ⊢
  split at hread
  · rename_i cached hcached
    exact hcached.trans hread
  · rename_i hnew
    split at hread
    · exact (Table.get?_insert _ _ _ _).trans ((if_pos rfl).trans hread)
    · cases hread

/-- A written file stays written. -/
theorem GrowsTo.isVirtual (h : w.GrowsTo w') {path : Text} (hvirtual : w.isVirtual path) :
    w'.isVirtual path := by
  obtain ⟨writes, hwrites⟩ := h.overlay
  have hkey : Path.normalize path ∈ w.overlay.files.keys := (Table.contains_iff _ _).mp hvirtual
  apply (Table.contains_iff w'.overlay.files _).mpr
  rw [hwrites]
  exact (w.overlay.keys_prefix_keys_writeAll writes).subset hkey

/-- A written file with the version that it had is the file that it was. -/
theorem GrowsTo.text?_eq (h : w.GrowsTo w') {path : Text} (hvirtual : w'.isVirtual path)
    {fs fs' : FileSystem} (hversion : w'.version fs' path = w.version fs path) :
    w.isVirtual path ∧ w'.overlay.text? path = w.overlay.text? path := by
  obtain ⟨writes, hwrites⟩ := h.overlay
  obtain ⟨hold, hsame⟩ := (version_eq_version_iff hvirtual fs fs').mp hversion.symm
  rw [hwrites] at hsame ⊢
  exact ⟨hold, congrArg _ (Overlay.get?_writeAll_of_version_eq hsame.symm)⟩

end Workspace

namespace Compiler

variable {σ α : Type} (checker : Checker σ) (fs : FileSystem) {invariant : Compiler σ → Prop}

/-! ## Requests -/

/-- What every call and every reading preserve is preserved by the files of a request. -/
theorem Preserves.compileFiles
    (hcall : ∀ {β : Type} (action : CheckM σ β), Preserves invariant (call fs action))
    (hplace : ∀ raws, Preserves invariant (inWorkspace (placeAll fs raws)))
    (entries : List (Text × SourceFile)) :
    Preserves invariant (compileFiles checker fs entries) := by
  induction entries with
  | nil => exact Preserves.pure _
  | cons e rest ih =>
    have hcheck : Preserves invariant (check checker fs e.1) :=
      (hcall _).bind fun _ ↦ (hcall _).bind fun _ ↦ (hcall _).bind fun _ ↦ (hcall _).bind fun _ ↦
        Preserves.pure _
    have hfile : Preserves invariant (compileFile checker fs e.1 e.2) :=
      hcheck.bind fun _ ↦ (hplace _).bind fun _ ↦ Preserves.pure _
    exact hfile.bind fun _ ↦ ih.bind fun _ ↦ Preserves.pure _

variable {R : Workspace → Workspace → Prop}

theorem along_call (h : Workspace.LastsWhileAsking fs R) (action : CheckM σ α) (c : Compiler σ) :
    R c.workspace (run (call fs action) c).2.workspace :=
  h.run h.answer (action c.state) c.workspace

theorem along_place (h : Workspace.LastsWhileAsking fs R) (raw : RawDiagnostic) :
    Workspace.Along R (place fs raw) := by
  unfold place
  split
  · exact h.pure _
  · apply h.bind (h.read _)
    intro text
    split
    · exact h.pure _
    · exact h.pure _

theorem along_placeAll (h : Workspace.LastsWhileAsking fs R) (raws : List RawDiagnostic) :
    Workspace.Along R (placeAll fs raws) := by
  induction raws with
  | nil => exact h.pure _
  | cons raw rest ih =>
    exact h.bind (along_place fs h raw) fun _ ↦ h.bind ih fun _ ↦ h.pure _

theorem along_compileFiles (h : Workspace.LastsWhileAsking fs R)
    (entries : List (Text × SourceFile)) (c : Compiler σ) :
    R c.workspace (run (compileFiles checker fs entries) c).2.workspace :=
  Preserves.compileFiles checker fs (fun action d hd ↦ h.trans hd (along_call fs h action d))
    (fun raws d hd ↦ h.trans hd (along_placeAll fs h raws d.workspace)) entries c (h.refl _)

theorem growsTo_compileFiles (entries : List (Text × SourceFile)) (c : Compiler σ) :
    c.workspace.GrowsTo (run (compileFiles checker fs entries) c).2.workspace :=
  along_compileFiles checker fs (Workspace.lastsWhileAsking_growsTo fs) entries c

theorem growsTo_prepare (files : FileSet) (w : Workspace) : w.GrowsTo (prepare files w) := by
  rw [prepare_eq]
  exact ⟨rfl, ⟨files.writes, rfl⟩, fun _ _ h ↦ h⟩

variable {checker fs} {files : FileSet} {c start : Compiler σ} {path : Text}

/-- What lasts while questions are asked leads from the prepared workspace to every file. -/
theorem Reaches.along (h : Workspace.LastsWhileAsking fs R)
    (hreaches : Reaches checker fs files c path start) :
    R (prepare files c.workspace) start.workspace := by
  obtain ⟨earlier, _, _, done, -, hrun⟩ := hreaches
  have hfiles := along_compileFiles checker fs h earlier
    { c with workspace := prepare files c.workspace }
  rwa [hrun] at hfiles

theorem Reaches.growsTo (h : Reaches checker fs files c path start) :
    c.workspace.GrowsTo start.workspace :=
  (growsTo_prepare files c.workspace).trans (h.along (Workspace.lastsWhileAsking_growsTo fs))

/-- A request ends where its files end, in success and in failure. -/
theorem run_compile_snd (checker : Checker σ) (fs : FileSystem) (files : FileSet)
    (c : Compiler σ) : (run (compile checker fs files) c).2 =
      (run (compileFiles checker fs files.entries)
        { c with workspace := prepare files c.workspace }).2 := by
  rw [run_compile, run_bind]
  rcases run (compileFiles checker fs files.entries)
    ⟨prepare files c.workspace, c.state⟩ with ⟨_ | _, _⟩
  · rfl
  · rfl

theorem growsTo_compile (checker : Checker σ) (fs : FileSystem) (files : FileSet)
    (c : Compiler σ) : c.workspace.GrowsTo (run (compile checker fs files) c).2.workspace := by
  rw [run_compile_snd]
  exact (growsTo_prepare files c.workspace).trans (growsTo_compileFiles checker fs files.entries
    { c with workspace := prepare files c.workspace })

end Compiler

end FencedCode
