import FencedCode.Module.Lookup

/-!
# What a lookup finds

To a lookup the files are three functions: whether a file exists, whether a folder exists, and the
text of a file. With these a path stands for the first of its candidates that exists. Each candidate
has the ending of a known kind, so no file that is found is given up because of its name.
-/

namespace FencedCode

namespace FileKind

/-- Of all known endings that the name has, that of the kind is the longest. -/
structure IsKindOf (kind : FileKind) (name : Text) : Prop where
  suffix : kind.ending <:+ name
  longest : ∀ other : FileKind, other.ending <:+ name → other.ending.length ≤ kind.ending.length

theorem ending_suffix_ending {kind other : FileKind} (h : kind.ending <:+ other.ending) :
    kind = other ∨ kind = ts ∧ other = declaration := by
  cases kind <;> cases other <;> revert h <;> decide

theorem IsKindOf.unique {kind other : FileKind} {name : Text} (h : kind.IsKindOf name)
    (h' : other.IsKindOf name) : kind = other := by
  have hlength : kind.ending.length = other.ending.length :=
    Nat.le_antisymm (h'.longest kind h.suffix) (h.longest other h'.suffix)
  have hsuffix := List.suffix_of_suffix_length_le h.suffix h'.suffix (Nat.le_of_eq hlength)
  rcases ending_suffix_ending hsuffix with heq | ⟨rfl, rfl⟩
  · exact heq
  · exact absurd hlength (by decide)

theorem isKindOf_of_ofName? {kind : FileKind} {name : Text} (h : ofName? name = some kind) :
    kind.IsKindOf name := by
  have hends := List.find?_some (show List.find? _ _ = some kind from h)
  have hsuffix : kind.ending <:+ name := List.isSuffixOf_iff_suffix.mp hends
  refine ⟨hsuffix, fun other hother ↦ ?_⟩
  rcases Nat.le_total other.ending.length kind.ending.length with hle | hle
  · exact hle
  · rcases ending_suffix_ending (List.suffix_of_suffix_length_le hsuffix hother hle) with
      rfl | ⟨rfl, rfl⟩
    · exact Nat.le_refl _
    · -- The ending of declarations is asked for first.
      have hfirst : ofName? name = some declaration :=
        List.find?_cons_of_pos (List.isSuffixOf_iff_suffix.mpr hother)
      rw [hfirst] at h
      exact absurd h (by decide)

theorem exists_ofName?_of_suffix {kind : FileKind} {name : Text} (h : kind.ending <:+ name) :
    ∃ found, ofName? name = some found := by
  rw [← Option.isSome_iff_exists, ofName?, List.find?_isSome]
  refine ⟨kind, ?_, List.isSuffixOf_iff_suffix.mpr h⟩
  cases kind <;> decide

/-- A name is of the kind that has the longest ending. -/
theorem ofName?_eq_some_iff {kind : FileKind} {name : Text} :
    ofName? name = some kind ↔ kind.IsKindOf name := by
  refine ⟨isKindOf_of_ofName?, fun h ↦ ?_⟩
  obtain ⟨found, hfound⟩ := exists_ofName?_of_suffix h.suffix
  rw [hfound, (isKindOf_of_ofName? hfound).unique h]

end FileKind

theorem ResolvedModule.ofFile?_of_ofName? {file : Text} {kind : FileKind}
    (h : FileKind.ofName? file = some kind) : ofFile? file = some ⟨file, kind, false, none⟩ := by
  rw [ofFile?, h, Option.map_some]

/-! ## Candidates -/

namespace Lookup

theorem exists_kind_of_mem_fileCandidates {path file : Text} (h : file ∈ fileCandidates path) :
    ∃ kind, FileKind.ofName? file = some kind := by
  rcases List.mem_append.mp h with hself | hsource
  · split at hself
    · rename_i hknown
      rw [List.mem_singleton.mp hself]
      exact Option.isSome_iff_exists.mp hknown
    · exact absurd hself List.not_mem_nil
  · obtain ⟨kind, -, rfl⟩ := List.mem_map.mp hsource
    exact FileKind.exists_ofName?_of_suffix (List.suffix_append _ kind.ending)

theorem exists_kind_of_mem_indexCandidates {folder file : Text}
    (h : file ∈ indexCandidates folder) : ∃ kind, FileKind.ofName? file = some kind := by
  obtain ⟨kind, -, rfl⟩ := List.mem_map.mp h
  exact FileKind.exists_ofName?_of_suffix (List.suffix_append _ kind.ending)

theorem exists_kind_of_mem_folderCandidates {folder file : Text} {m : Option Manifest}
    (h : file ∈ folderCandidates folder m) : ∃ kind, FileKind.ofName? file = some kind := by
  unfold folderCandidates at h
  split at h
  · rcases List.mem_append.mp h with hentry | hindex
    · rcases List.mem_append.mp hentry with hfile | hindex
      · exact exists_kind_of_mem_fileCandidates hfile
      · exact exists_kind_of_mem_indexCandidates hindex
    · exact exists_kind_of_mem_indexCandidates hindex
  · exact exists_kind_of_mem_indexCandidates h

end Lookup

/-! ## Lookups on a view -/

/-- Files as a lookup sees them. -/
structure FileView where
  fileExists : Text → Bool
  folderExists : Text → Bool
  /-- The text of a file, or nothing when it cannot be read. -/
  readText : Text → Option Text

namespace FileView

variable (v : FileView) {α β : Type}

def answer : (request : FileRequest) → request.Answer
  | .fileExists path => v.fileExists path
  | .folderExists path => v.folderExists path
  | .read path => v.readText path

/-- What a lookup comes to when the view answers it. -/
def eval (lookup : Lookup α) : α := Dialogue.run (m := Id) v.answer lookup

@[simp] theorem eval_pure (a : α) : v.eval (pure a) = a := rfl

@[simp] theorem eval_bind (x : Lookup α) (f : α → Lookup β) :
    v.eval (x >>= f) = v.eval (f (v.eval x)) := Dialogue.run_bind (m := Id) v.answer x f

/-- The requests of a lookup that the view answers, in order. -/
def asked : Lookup α → List FileRequest
  | .done _ => []
  | .ask request next => request :: asked (next (v.answer request))

@[simp] theorem asked_pure (a : α) : v.asked (pure a) = [] := rfl

theorem asked_bind (x : Lookup α) (f : α → Lookup β) :
    v.asked (x >>= f) = v.asked x ++ v.asked (f (v.eval x)) := by
  induction x with
  | done a => rfl
  | ask request next ih => exact congrArg (request :: ·) (ih _)

@[simp] theorem eval_fileExists (path : Text) :
    v.eval (Lookup.fileExists path) = v.fileExists path := rfl

@[simp] theorem eval_folderExists (path : Text) :
    v.eval (Lookup.folderExists path) = v.folderExists path := rfl

@[simp] theorem eval_read (path : Text) : v.eval (Lookup.read path) = v.readText path := rfl

@[simp] theorem eval_ite (c : Prop) [Decidable c] (x y : Lookup α) :
    v.eval (if c then x else y) = if c then v.eval x else v.eval y := apply_ite v.eval c x y

/-- The manifest of a folder. -/
def manifest (folder : Text) : Option Lookup.Manifest :=
  (v.readText (folder ++ "/package.json".toList)).bind Lookup.Manifest.ofText?

/-- The files that a path may stand for, as a file or as a folder. -/
def candidates (path : Text) : List Text :=
  Lookup.fileCandidates path ++
    if v.folderExists path then Lookup.folderCandidates path (v.manifest path) else []

theorem eval_firstFile (names : List Text) :
    v.eval (Lookup.firstFile names) = names.find? v.fileExists := by
  induction names with
  | nil => rfl
  | cons name rest ih =>
    rw [Lookup.firstFile, eval_bind, eval_fileExists, eval_ite, ih]
    cases h : v.fileExists name with
    | true => rw [if_pos rfl, List.find?_cons_of_pos h, eval_pure]
    | false => rw [if_neg Bool.false_ne_true, List.find?_cons_of_neg (by simp [h])]

@[simp] theorem eval_manifest (folder : Text) :
    v.eval (Lookup.manifest folder) = v.manifest folder := by
  rw [Lookup.manifest, eval_bind, eval_read, eval_pure, manifest]

theorem eval_folder (path : Text) : v.eval (Lookup.folder path) =
    if v.folderExists path then (Lookup.folderCandidates path (v.manifest path)).find? v.fileExists
    else none := by
  rw [Lookup.folder, eval_bind, eval_folderExists, eval_ite, eval_bind, eval_manifest,
    eval_firstFile, eval_pure]

/-- A path stands for the first of its candidates that exists. -/
theorem eval_fileOrFolder (path : Text) :
    v.eval (Lookup.fileOrFolder path) = (v.candidates path).find? v.fileExists := by
  rw [Lookup.fileOrFolder, eval_bind, Lookup.file, eval_firstFile, candidates, List.find?_append]
  cases (Lookup.fileCandidates path).find? v.fileExists with
  | some found => rw [eval_pure, Option.some_or]
  | none =>
    rw [eval_folder, Option.none_or]
    split
    · rfl
    · rfl

theorem exists_kind_of_mem_candidates {v : FileView} {path file : Text}
    (h : file ∈ v.candidates path) : ∃ kind, FileKind.ofName? file = some kind := by
  rcases List.mem_append.mp h with hfile | hfolder
  · exact Lookup.exists_kind_of_mem_fileCandidates hfile
  · split at hfolder
    · exact Lookup.exists_kind_of_mem_folderCandidates hfolder
    · exact absurd hfolder List.not_mem_nil

/-- The file that a path stands for exists, and its name is that of a module. -/
theorem exists_ofFile?_of_eval_fileOrFolder {v : FileView} {path file : Text}
    (h : v.eval (Lookup.fileOrFolder path) = some file) : v.fileExists file ∧
      ∃ kind, kind.IsKindOf file ∧
        ResolvedModule.ofFile? file = some ⟨file, kind, false, none⟩ := by
  rw [eval_fileOrFolder] at h
  obtain ⟨kind, hkind⟩ := exists_kind_of_mem_candidates (List.mem_of_find?_eq_some h)
  exact ⟨List.find?_some h, kind, FileKind.isKindOf_of_ofName? hkind,
    ResolvedModule.ofFile?_of_ofName? hkind⟩

end FileView

end FencedCode
