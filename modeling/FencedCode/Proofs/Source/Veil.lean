import FencedCode.Proofs.Table
import FencedCode.Source.Listing
import FencedCode.Source.Variant

/-!
# What hidden files do not show

A hidden file is left out of listings. Its code can therefore be taken away before or after any
step that works file by file: from the files of a block, from what they are emitted as, and from
both variants. What is listed in the end is the same. So files that agree where they are shown have
the same listings.
-/

namespace FencedCode

namespace SourceFile

/-- The file, without its code when it is hidden. -/
def veiled (file : SourceFile) : SourceFile :=
  if file.hidden then { file with code := [] } else file

theorem path_veiled (file : SourceFile) : file.veiled.path = file.path := by
  unfold veiled
  split <;> rfl

theorem hidden_veiled (file : SourceFile) : file.veiled.hidden = file.hidden := by
  unfold veiled
  split <;> rfl

theorem veiled_of_shown {file : SourceFile} (h : file.hidden = false) : file.veiled = file := by
  rw [veiled, h]
  rfl

theorem veiled_eq_veiled {file other : SourceFile} (hpath : file.path = other.path)
    (hhidden : file.hidden = other.hidden)
    (hcode : file.hidden = false → file.code = other.code) : file.veiled = other.veiled := by
  obtain ⟨path, code, hidden⟩ := file
  obtain ⟨_, code', _⟩ := other
  obtain rfl := hpath
  obtain rfl := hhidden
  cases hidden with
  | true => rfl
  | false =>
    obtain rfl : code = code' := hcode rfl
    rfl

/-- A new code shows no more than the old one. -/
theorem veiled_recoded (path : Text) (recode : Text → Text) (file : SourceFile) :
    veiled ⟨path, recode file.veiled.code, file.hidden⟩ =
      veiled ⟨path, recode file.code, file.hidden⟩ := by
  cases hhidden : file.hidden with
  | true => rfl
  | false => rw [veiled_of_shown hhidden]

end SourceFile

theorem listing_map_veiled (folder : Text) (files : List SourceFile) :
    listing folder (files.map SourceFile.veiled) = listing folder files := by
  have hshown : (files.map SourceFile.veiled).filter (fun file ↦ !file.hidden) =
      files.filter fun file ↦ !file.hidden := by
    rw [List.filter_map]
    simp only [Function.comp_def, SourceFile.hidden_veiled]
    refine (List.map_congr_left (g := id) fun file hfile ↦ ?_).trans (List.map_id _)
    apply SourceFile.veiled_of_shown
    simpa using (List.mem_filter.mp hfile).2
  rw [listing, hshown, listing]

namespace FileSet

/-- The files without the codes of the hidden ones. -/
def veiled (files : FileSet) : FileSet := files.map fun _ file ↦ file.veiled

theorem listing_values_veiled (folder : Text) (files : FileSet) :
    listing folder files.veiled.values = listing folder files.values := by
  have hvalues : files.veiled.values = files.values.map SourceFile.veiled := by
    simp only [veiled, Table.map, Table.values, List.map_map]
    rfl
  rw [hvalues, listing_map_veiled]

/-- New codes, each made of the old code of the same file, show no more than the old ones. -/
theorem veiled_map_veiled (repath recode : Text → Text → Text) (files : FileSet) :
    veiled (files.veiled.map fun key file ↦
      ⟨repath key file.path, recode key file.code, file.hidden⟩) =
    veiled (files.map fun key file ↦
      ⟨repath key file.path, recode key file.code, file.hidden⟩) := by
  simp only [veiled, Table.map_map, SourceFile.path_veiled, SourceFile.hidden_veiled]
  simp only [SourceFile.veiled_recoded]

theorem veiled_typedVariant (files : FileSet) :
    files.veiled.typedVariant.veiled = files.typedVariant.veiled :=
  veiled_map_veiled (fun _ path ↦ path) (fun _ code ↦ Text.trim code) files

/-- Emitted names may coincide, and then the last file takes the place of the others, hidden or
not. -/
theorem veiled_compiledVariant (files : FileSet) :
    files.veiled.compiledVariant.veiled = files.compiledVariant.veiled := by
  unfold compiledVariant veiled
  rw [Table.map_ofList, Table.map_ofList]
  simp only [Table.map, Table.values, List.map_map]
  refine congrArg Table.ofList (List.map_congr_left fun e _ ↦ ?_)
  simp only [Function.comp_apply, SourceFile.path_veiled, SourceFile.hidden_veiled,
    SourceFile.veiled_recoded _ fun code ↦ Text.trim (stripSuppressions code)]

/-- The files have the same paths in the same order, the same ones are hidden, and those that are
shown have the same codes. -/
structure AgreeWhereShown (files others : FileSet) : Prop where
  keys_eq : files.keys = others.keys
  path_eq : ∀ key file other, files.get? key = some file → others.get? key = some other →
    file.path = other.path
  hidden_eq : ∀ key file other, files.get? key = some file → others.get? key = some other →
    file.hidden = other.hidden
  code_eq : ∀ key file other, files.get? key = some file → others.get? key = some other →
    file.hidden = false → file.code = other.code

theorem AgreeWhereShown.veiled_eq {files others : FileSet} (h : files.AgreeWhereShown others) :
    files.veiled = others.veiled := by
  apply Table.eq_of_get?
  · rw [veiled, veiled, Table.keys_map, Table.keys_map, h.keys_eq]
  · intro key _ hother
    rw [veiled, Table.get?_map] at hother ⊢
    obtain ⟨other, hget, rfl⟩ := Option.map_eq_some_iff.mp hother
    have hkey : files.contains key := by
      rw [Table.contains_iff, h.keys_eq, ← Table.contains_iff, Table.contains, hget,
        Option.isSome_some]
    obtain ⟨file, hfile⟩ := Option.isSome_iff_exists.mp hkey
    rw [hfile, Option.map_some, Option.some_inj]
    exact SourceFile.veiled_eq_veiled (h.path_eq key file other hfile hget)
      (h.hidden_eq key file other hfile hget) (h.code_eq key file other hfile hget)

theorem agreeWhereShown_of_veiled_eq {files others : FileSet} (h : files.veiled = others.veiled) :
    files.AgreeWhereShown others := by
  have hveiled : ∀ key file other, files.get? key = some file → others.get? key = some other →
      file.veiled = other.veiled := by
    intro key file other hfile hother
    have hget := congrArg (Table.get? · key) h
    simpa only [veiled, Table.get?_map, hfile, hother, Option.map_some, Option.some_inj] using hget
  refine ⟨?_, fun key file other hfile hother ↦ ?_, fun key file other hfile hother ↦ ?_,
    fun key file other hfile hother hshown ↦ ?_⟩
  · have hkeys := congrArg Table.keys h
    rwa [veiled, veiled, Table.keys_map, Table.keys_map] at hkeys
  · rw [← file.path_veiled, hveiled key file other hfile hother, other.path_veiled]
  · rw [← file.hidden_veiled, hveiled key file other hfile hother, other.hidden_veiled]
  · have hsame := hveiled key file other hfile hother
    have hshown' : other.hidden = false := by
      rw [← other.hidden_veiled, ← hsame, file.hidden_veiled, hshown]
    rw [SourceFile.veiled_of_shown hshown, SourceFile.veiled_of_shown hshown'] at hsame
    rw [hsame]

instance (files others : FileSet) : Decidable (files.AgreeWhereShown others) :=
  decidable_of_iff (files.veiled = others.veiled)
    ⟨agreeWhereShown_of_veiled_eq, AgreeWhereShown.veiled_eq⟩

end FileSet

end FencedCode
