import FencedCode.Checker.Line
import FencedCode.Proofs.Compiler.Call
import FencedCode.Proofs.Compiler.Snapshot

/-!
# What the line checker keeps

The line checker keeps what it found out about a file with the version that the file had. A version
that is still the same belongs to the same text, so what is kept of a file without imports is what
a new analysis of its text would give. This holds through any number of requests.
-/

namespace FencedCode.LineChecker

open Compiler LineSyntax

/-! ## One analysis -/

/-- No row of the text imports anything. -/
def ImportFree (text : Text) : Prop := ∀ row ∈ Text.rows text, importLine? row = none

instance (text : Text) : Decidable (ImportFree text) :=
  inferInstanceAs (Decidable (∀ row ∈ Text.rows text, importLine? row = none))

/-- What is wrong in a text that imports nothing. -/
def ownDiagnostics (file text : Text) : List RawDiagnostic :=
  rowsDiagnostics file (signatures text) 0 (Text.rows text)

theorem file_of_mem_rowDiagnostics {file row : Text} {signatures : Signatures} {offset : Nat}
    {raw : RawDiagnostic} (h : raw ∈ rowDiagnostics file signatures offset row) :
    raw.file = some file := by
  rcases List.mem_append.mp h with hdeclared | hpassed
  · obtain ⟨_, -, rfl⟩ := List.mem_map.mp hdeclared
    rfl
  · split at hpassed
    · exact absurd hpassed List.not_mem_nil
    · obtain ⟨_, -, rfl⟩ := List.mem_map.mp hpassed
      rfl

/-- What is found in the rows of a file is about this file. -/
theorem file_of_mem_rowsDiagnostics {file : Text} {signatures : Signatures} {offset : Nat}
    {rows : List Text} {raw : RawDiagnostic}
    (h : raw ∈ rowsDiagnostics file signatures offset rows) : raw.file = some file := by
  induction rows generalizing offset with
  | nil => exact absurd h List.not_mem_nil
  | cons row rest ih =>
    rcases List.mem_append.mp h with hrow | hrest
    · exact file_of_mem_rowDiagnostics hrow
    · exact ih hrest

theorem addImports_of_forall_eq_none {rows : List Text} (h : ∀ row ∈ rows, importLine? row = none)
    (file : Text) (offset : Nat) (sofar : Imported) :
    addImports file offset rows sofar = pure sofar := by
  induction rows generalizing offset with
  | nil => rfl
  | cons row rest ih =>
    obtain ⟨hfirst, hrest⟩ := List.forall_mem_cons.mp h
    rw [addImports, hfirst]
    exact (pure_bind sofar _).trans (ih hrest _)

variable (fs : FileSystem)

theorem keepsState_call_addImport (file : Text) (offset : Nat) (line : ImportLine)
    (sofar : Imported) : KeepsState (call fs (addImport file offset line sofar)) := by
  rw [addImport, call_bind]
  apply (keepsState_call_resolve _ _).bind
  intro modules
  split
  · rw [call_bind]
    apply (keepsState_call_inquire _).bind
    intro version
    rw [call_bind]
    exact (keepsState_call_inquire _).bind fun _ ↦ KeepsState.pure _
  · exact KeepsState.pure _

theorem keepsState_call_addImports (file : Text) (offset : Nat) (rows : List Text)
    (sofar : Imported) : KeepsState (call fs (addImports file offset rows sofar)) := by
  induction rows generalizing offset sofar with
  | nil => exact KeepsState.pure _
  | cons row rest ih =>
    rw [addImports]
    split
    · rw [call_bind]
      exact (keepsState_call_addImport fs _ _ _ _).bind fun _ ↦ ih _ _
    · rw [call_bind]
      exact (KeepsState.pure _).bind fun _ ↦ ih _ _

variable {fs}

/-- An import notes the version of the file that its module is in, or that the module is
missing. -/
theorem addImport_cases {file : Text} {offset : Nat} {line : ImportLine} {sofar next : Imported}
    {c c' : Compiler State}
    (h : run (call fs (addImport file offset line sofar)) c = (.ok next, c')) :
    (∃ (target : ResolvedModule) (version : Text) (text : Option Text),
      next = { sofar with
        versions := sofar.versions ++ [(target.file, version)]
        signatures := withNames sofar.signatures (signatures (text.getD [])) line.names }) ∨
      next = { sofar with
        diagnostics := sofar.diagnostics ++ [missingModule file offset line] } := by
  rw [addImport, call_bind, run_bind_eq_ok_iff] at h
  obtain ⟨modules, _, -, h⟩ := h
  split at h
  · rename_i target _
    rw [call_bind, run_bind_eq_ok_iff] at h
    obtain ⟨version, _, -, h⟩ := h
    rw [call_bind, run_bind_eq_ok_iff] at h
    obtain ⟨text, _, -, h⟩ := h
    exact .inl ⟨target, version, text, (run_pure_eq_ok_iff.mp h).1.symm⟩
  · exact .inr (run_pure_eq_ok_iff.mp h).1.symm

theorem versions_subset_of_run_addImport {file : Text} {offset : Nat} {line : ImportLine}
    {sofar next : Imported} {c c' : Compiler State}
    (h : run (call fs (addImport file offset line sofar)) c = (.ok next, c')) :
    sofar.versions ⊆ next.versions := by
  obtain ⟨target, version, text, rfl⟩ | rfl := addImport_cases h
  · exact List.subset_append_left _ _
  · exact List.Subset.refl _

/-- Imports only add versions. -/
theorem versions_subset_of_run_addImports {file : Text} {offset : Nat} {rows : List Text}
    {sofar imported : Imported} {c c' : Compiler State}
    (h : run (call fs (addImports file offset rows sofar)) c = (.ok imported, c')) :
    sofar.versions ⊆ imported.versions := by
  induction rows generalizing offset sofar c with
  | nil =>
    obtain ⟨rfl, -⟩ := run_pure_eq_ok_iff.mp h
    exact List.Subset.refl _
  | cons row rest ih =>
    rw [addImports] at h
    split at h
    · rw [call_bind, run_bind_eq_ok_iff] at h
      obtain ⟨next, _, hnext, h⟩ := h
      exact List.Subset.trans (versions_subset_of_run_addImport hnext) (ih h)
    · rw [call_bind, run_bind_eq_ok_iff] at h
      obtain ⟨next, _, hnext, h⟩ := h
      obtain ⟨rfl, rfl⟩ := run_pure_eq_ok_iff.mp hnext
      exact ih h

theorem run_call_areCurrent (versions : List (Text × Text)) (c : Compiler State) :
    run (call fs (areCurrent versions)) c =
      (.ok (versions.all fun e ↦ c.workspace.version fs e.1 = e.2), c) := by
  induction versions with
  | nil => rfl
  | cons e rest ih =>
    obtain ⟨file, version⟩ := e
    rw [areCurrent, call_bind, run_bind, run_call_version]
    dsimp only
    split
    · rename_i hsame
      rw [ih, List.all_cons, decide_eq_true hsame, Bool.true_and]
    · rename_i hother
      rw [run_call_pure, List.all_cons, decide_eq_false hother, Bool.false_and]

/-! ## What is kept -/

/-- The analysis was made of a text that the file had at some version, and still has unless the
version has grown. -/
structure Describes (o : Overlay) (file : Text) (analysis : Analysis) (text : Text)
    (version : Nat) : Prop where
  version_mem : (file, Text.ofNat version) ∈ analysis.versions
  version_le : version ≤ o.version file
  text?_eq : o.version file = version → o.text? file = some text
  diagnostics_eq : ImportFree text → analysis.diagnostics = ownDiagnostics file text

theorem Describes.writeAll {o : Overlay} {file text : Text} {analysis : Analysis} {version : Nat}
    (h : Describes o file analysis text version) (writes : List (Text × Text)) :
    Describes (o.writeAll writes) file analysis text version where
  version_mem := h.version_mem
  version_le := by
    rw [Overlay.version_writeAll]
    exact Nat.le_add_right_of_le h.version_le
  text?_eq hversion := by
    have hle := h.version_le
    have hcount := Overlay.version_writeAll o file writes
    have hsame : o.version file = version := by omega
    rw [Overlay.text?, Overlay.get?_writeAll_of_version_eq (hversion.trans hsame.symm)]
    exact h.text?_eq hsame
  diagnostics_eq := h.diagnostics_eq

/-- Everything that the checker keeps describes a file. -/
def IsSound (c : Compiler State) : Prop :=
  ∀ file analysis, c.state.kept.get? file = some analysis →
    ∃ text version, Describes c.workspace.overlay file analysis text version

theorem isSound_new (w : Workspace) : IsSound ⟨w, State.empty⟩ := fun _ _ h ↦
  absurd h (Option.some_ne_none _).symm

variable {c c' : Compiler State} {file text : Text}

theorem IsSound.of_eq (h : IsSound c) (hoverlay : c'.workspace.overlay = c.workspace.overlay)
    (hkept : c'.state.kept = c.state.kept) : IsSound c' := by
  unfold IsSound
  rw [hoverlay, hkept]
  exact h

theorem IsSound.insert (h : IsSound c) {analysis : Analysis} {version : Nat}
    (hnew : Describes c.workspace.overlay file analysis text version) :
    IsSound ⟨c.workspace, { c.state with kept := c.state.kept.insert file analysis }⟩ := by
  intro other kept hkept
  rw [Table.get?_insert] at hkept
  split at hkept
  · rename_i hother
    subst hother
    obtain rfl := Option.some_inj.mp hkept
    exact ⟨text, version, hnew⟩
  · exact h other kept hkept

/-! ## A new analysis -/

/-- What an analysis begins with. -/
def begun (o : Overlay) (file text : Text) : Imported :=
  ⟨[(file, Text.ofNat (o.version file))], [], signatures text⟩

/-- What an analysis ends with. -/
def concluded (file text : Text) (imported : Imported) : Analysis :=
  ⟨imported.versions,
    imported.diagnostics ++ rowsDiagnostics file imported.signatures 0 (Text.rows text)⟩

/-- The compiler with one analysis more that was begun. -/
def counted (c : Compiler State) : Compiler State :=
  ⟨c.workspace, { c.state with analyses := c.state.analyses + 1 }⟩

theorem run_call_renew (htext : c.workspace.overlay.text? file = some text) :
    run (call fs (typeDiagnostics.renew file)) c = run (call fs (do
      let imported ← addImports file 0 (Text.rows text) (begun c.workspace.overlay file text)
      modify fun s ↦ { s with kept := s.kept.insert file (concluded file text imported) }
      return (concluded file text imported).diagnostics)) (counted c) := by
  rw [typeDiagnostics.renew, analyze]
  simp only [bind_assoc, pure_bind]
  rw [call_bind, run_bind, run_call_modify]
  dsimp only
  rw [call_bind, run_bind, run_call_read, Workspace.read_of_text? htext]
  dsimp only
  rw [call_bind, run_bind, run_call_version,
    Workspace.version_of_isVirtual (Workspace.isVirtual_of_text? htext)]
  rfl

theorem run_addImports_of_importFree (h : ImportFree text) (file : Text) (sofar : Imported)
    (c : Compiler State) :
    run (call fs (addImports file 0 (Text.rows text) sofar)) c = (.ok sofar, c) := by
  rw [addImports_of_forall_eq_none h, run_call_pure]

/-- A new analysis describes the file as it is. -/
theorem describes_concluded {imported : Imported}
    (htext : c.workspace.overlay.text? file = some text)
    (hrun : run (call fs (addImports file 0 (Text.rows text)
      (begun c.workspace.overlay file text))) c = (.ok imported, c')) :
    Describes c.workspace.overlay file (concluded file text imported) text
      (c.workspace.overlay.version file) where
  version_mem := versions_subset_of_run_addImports hrun List.mem_cons_self
  version_le := Nat.le_refl _
  text?_eq _ := htext
  diagnostics_eq hfree := by
    rw [run_addImports_of_importFree hfree] at hrun
    obtain rfl := Except.ok.inj (Prod.mk.inj hrun).1
    rfl

theorem isSound_run_renew (h : IsSound c) (htext : c.workspace.overlay.text? file = some text) :
    IsSound (run (call fs (typeDiagnostics.renew file)) c).2 := by
  have hcounted : IsSound (counted c) := h.of_eq rfl rfl
  rw [run_call_renew htext, call_bind, run_bind]
  rcases hrun : run (call fs (addImports file 0 (Text.rows text)
    (begun c.workspace.overlay file text))) (counted c) with ⟨_ | imported, c'⟩
  all_goals
    have hoverlay := ((onlyAsks_call fs _).of_run_eq hrun).overlay
    have hstate := (keepsState_call_addImports fs _ _ _ _).of_run_eq hrun
    have hsound : IsSound c' := hcounted.of_eq hoverlay (congrArg State.kept hstate)
  · exact hsound
  · have hnew := describes_concluded (c := counted c) htext hrun
    exact hsound.insert (hoverlay ▸ hnew)

/-! ## Diagnostics, kept or new -/

/-- The diagnostics are those of a kept analysis whose versions are all current, or new ones. -/
theorem run_call_typeDiagnostics (fs : FileSystem) (file : Text) (c : Compiler State) :
    (∃ analysis, c.state.kept.get? file = some analysis ∧
      (∀ e ∈ analysis.versions, c.workspace.version fs e.1 = e.2) ∧
      run (call fs (typeDiagnostics file)) c = (.ok analysis.diagnostics, c)) ∨
    run (call fs (typeDiagnostics file)) c = run (call fs (typeDiagnostics.renew file)) c := by
  rw [typeDiagnostics, call_bind, run_bind, run_call_get]
  dsimp only
  cases hkept : c.state.kept.get? file with
  | none => exact .inr rfl
  | some analysis =>
    dsimp only
    rw [call_bind, run_bind, run_call_areCurrent]
    cases hcurrent : analysis.versions.all fun e ↦ c.workspace.version fs e.1 = e.2 with
    | false => exact .inr rfl
    | true => exact .inl ⟨analysis, rfl, by simpa using hcurrent, rfl⟩

theorem isSound_run_typeDiagnostics (fs : FileSystem) (h : IsSound c)
    (htext : c.workspace.overlay.text? file = some text) :
    IsSound (run (call fs (typeDiagnostics file)) c).2 := by
  rcases run_call_typeDiagnostics fs file c with ⟨_, -, -, hrun⟩ | hrun
  · rw [hrun]
    exact h
  · rw [hrun]
    exact isSound_run_renew h htext

/-- What is kept of a text without imports is current only when it was made of the same text. -/
theorem run_typeDiagnostics_of_importFree (fs : FileSystem) (h : IsSound c)
    (htext : c.workspace.overlay.text? file = some text) (hfree : ImportFree text) :
    (run (call fs (typeDiagnostics file)) c).1 = .ok (ownDiagnostics file text) := by
  rcases run_call_typeDiagnostics fs file c with ⟨analysis, hkept, hcurrent, hrun⟩ | hrun
  · obtain ⟨old, version, hdescribes⟩ := h file analysis hkept
    have hversion := hcurrent _ hdescribes.version_mem
    rw [Workspace.version_of_isVirtual (Workspace.isVirtual_of_text? htext),
      Text.ofNat_injective.eq_iff] at hversion
    have hold : old = text :=
      Option.some_inj.mp ((hdescribes.text?_eq hversion).symm.trans htext)
    rw [hrun, hdescribes.diagnostics_eq (hold ▸ hfree), hold]
  · rw [hrun, run_call_renew htext, call_bind, run_bind, run_addImports_of_importFree hfree]
    rfl

end FencedCode.LineChecker
