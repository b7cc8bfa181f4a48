import FencedCode.Proofs.Table
import FencedCode.Source.Section
import FencedCode.Source.Variant
import Mathlib.Data.List.Nodup

/-!
# Files under their emitted names

The compiled variant holds every file under the name that it is emitted as. Different files have one
emitted name exactly when one of them is a script and the other the source of this script. Two such
files become one, at the place of the first and with what the last is emitted as. All other files
keep their places, each with its own code.
-/

namespace FencedCode

/-- The script is what the source is emitted as. -/
def IsSourceOf (source script : Text) : Prop :=
  ∃ stem, source = stem ++ ".ts".toList ∧ script = stem ++ ".js".toList ∨
    source = stem ++ ".tsx".toList ∧ script = stem ++ ".jsx".toList

/-- Of two endings of one name, one is an ending of the other. -/
theorem append_ne_append_of_not_suffix {ending ending' : Text} (h : ¬ ending <:+ ending')
    (h' : ¬ ending' <:+ ending) (stem other : Text) : stem ++ ending ≠ other ++ ending' := by
  intro heq
  have hends : ending' <:+ stem ++ ending := heq ▸ List.suffix_append other ending'
  rcases List.suffix_or_suffix_of_suffix (List.suffix_append stem ending) hends with hs | hs
  · exact h hs
  · exact h' hs

theorem IsSourceOf.eq_of_eq {source other script : Text} (h : IsSourceOf source script)
    (h' : IsSourceOf other script) : source = other := by
  obtain ⟨stem, ⟨rfl, rfl⟩ | ⟨rfl, rfl⟩⟩ := h
  · obtain ⟨stem', ⟨rfl, heq⟩ | ⟨rfl, heq⟩⟩ := h'
    · rw [List.append_cancel_right heq]
    · exact absurd heq (append_ne_append_of_not_suffix (by decide) (by decide) _ _)
  · obtain ⟨stem', ⟨rfl, heq⟩ | ⟨rfl, heq⟩⟩ := h'
    · exact absurd heq (append_ne_append_of_not_suffix (by decide) (by decide) _ _)
    · rw [List.append_cancel_right heq]

/-! ## Emitted names -/

theorem emittedName_append_tsx (stem : Text) :
    emittedName (stem ++ ".tsx".toList) = stem ++ ".jsx".toList := by
  rw [emittedName, Text.stripEnd?_eq_some_iff.mpr rfl]

theorem stripEnd?_tsx_append_ts (stem : Text) :
    Text.stripEnd? ".tsx".toList (stem ++ ".ts".toList) = none := by
  cases h : Text.stripEnd? ".tsx".toList (stem ++ ".ts".toList) with
  | none => rfl
  | some other =>
    exact absurd (Text.stripEnd?_eq_some_iff.mp h)
      (append_ne_append_of_not_suffix (by decide) (by decide) _ _)

theorem emittedName_append_ts (stem : Text) :
    emittedName (stem ++ ".ts".toList) = stem ++ ".js".toList := by
  rw [emittedName, stripEnd?_tsx_append_ts, Text.stripEnd?_eq_some_iff.mpr rfl]

theorem IsSourceOf.emittedName_eq {source script : Text} (h : IsSourceOf source script) :
    emittedName source = script := by
  obtain ⟨stem, ⟨rfl, rfl⟩ | ⟨rfl, rfl⟩⟩ := h
  · exact emittedName_append_ts stem
  · exact emittedName_append_tsx stem

/-- A name is kept, or it is that of a source. -/
theorem emittedName_eq_self_or (path : Text) :
    emittedName path = path ∨ IsSourceOf path (emittedName path) := by
  unfold emittedName
  split
  · rename_i stem htsx
    exact .inr ⟨stem, .inr ⟨Text.stripEnd?_eq_some_iff.mp htsx, rfl⟩⟩
  · split
    · rename_i stem hts
      exact .inr ⟨stem, .inl ⟨Text.stripEnd?_eq_some_iff.mp hts, rfl⟩⟩
    · exact .inl rfl

/-- No source is what another one is emitted as. -/
theorem IsSourceOf.not_isSourceOf {source script other : Text} (h : IsSourceOf source script) :
    ¬ IsSourceOf script other := by
  rintro ⟨stem', ⟨hts, -⟩ | ⟨htsx, -⟩⟩
  · obtain ⟨stem, ⟨-, rfl⟩ | ⟨-, rfl⟩⟩ := h
    all_goals exact append_ne_append_of_not_suffix (by decide) (by decide) _ _ hts
  · obtain ⟨stem, ⟨-, rfl⟩ | ⟨-, rfl⟩⟩ := h
    all_goals exact append_ne_append_of_not_suffix (by decide) (by decide) _ _ htsx

theorem IsSourceOf.emittedName_script {source script : Text} (h : IsSourceOf source script) :
    emittedName script = script :=
  (emittedName_eq_self_or script).resolve_right h.not_isSourceOf

/-- Names are emitted as one when they are one, or when one is the source of the other. -/
theorem emittedName_eq_emittedName_iff {path other : Text} :
    emittedName path = emittedName other ↔
      path = other ∨ IsSourceOf path other ∨ IsSourceOf other path := by
  constructor
  · intro h
    rcases emittedName_eq_self_or path with hpath | hpath
    · rcases emittedName_eq_self_or other with hother | hother
      · exact .inl (hpath.symm.trans (h.trans hother))
      · exact .inr (.inr (hpath ▸ h ▸ hother))
    · rcases emittedName_eq_self_or other with hother | hother
      · exact .inr (.inl (hother ▸ h ▸ hpath))
      · exact .inl (hpath.eq_of_eq (h ▸ hother))
  · rintro (rfl | h | h)
    · rfl
    · rw [h.emittedName_eq, h.emittedName_script]
    · rw [h.emittedName_eq, h.emittedName_script]

/-! ## The compiled variant -/

/-- The file as it stands in the compiled variant. -/
def SourceFile.asEmitted (file : SourceFile) : SourceFile :=
  ⟨emittedName file.path, Text.trim (stripSuppressions file.code), file.hidden⟩

namespace FileSet

variable {files : FileSet}

theorem compiledVariant_eq (files : FileSet) : files.compiledVariant =
    Table.ofList (files.values.map fun file ↦ (file.asEmitted.path, file.asEmitted)) := rfl

theorem map_path_values (hpaths : ∀ e ∈ files.entries, e.2.path = e.1) :
    files.values.map (·.path) = files.keys := by
  rw [Table.values, Table.keys, List.map_map]
  exact List.map_congr_left hpaths

/-- The emitted names, in the order of the files. -/
theorem map_emittedName_keys (hpaths : ∀ e ∈ files.entries, e.2.path = e.1) :
    files.keys.map emittedName =
      (files.values.map fun file ↦ (file.asEmitted.path, file.asEmitted)).map Prod.fst := by
  rw [← map_path_values hpaths, List.map_map, List.map_map]
  rfl

/-- All files are kept exactly when their emitted names are different. -/
theorem entries_compiledVariant_iff_nodup (hpaths : ∀ e ∈ files.entries, e.2.path = e.1) :
    files.compiledVariant.entries =
        files.values.map (fun file ↦ (file.asEmitted.path, file.asEmitted)) ↔
      (files.keys.map emittedName).Nodup := by
  rw [map_emittedName_keys hpaths]
  constructor
  · intro h
    rw [← h]
    exact files.compiledVariant.nodup_keys
  · exact Table.entries_ofList

theorem nodup_map_emittedName_iff (files : FileSet) : (files.keys.map emittedName).Nodup ↔
    ∀ source ∈ files.keys, ∀ script ∈ files.keys, ¬ IsSourceOf source script := by
  have hkeys : files.keys.Nodup := files.nodup_keys
  rw [List.nodup_map_iff_inj_on hkeys]
  constructor
  · intro h source hsource script hscript hemitted
    have heq : source = script :=
      h source hsource script hscript (emittedName_eq_emittedName_iff.mpr (.inr (.inl hemitted)))
    subst heq
    exact hemitted.not_isSourceOf hemitted
  · intro h path hpath other hother hsame
    rcases emittedName_eq_emittedName_iff.mp hsame with heq | hsource | hsource
    · exact heq
    · exact absurd hsource (h path hpath other hother)
    · exact absurd hsource (h other hother path hpath)

/-- The compiled variant holds all files in their order, each under its emitted name, exactly when
no script stands beside its own source. In any case it has the emitted names in the order in which
they first come up, and under each of them what the last of its files is emitted as. -/
theorem compiledVariant_complete_iff (files : FileSet)
    (hpaths : ∀ e ∈ files.entries, e.2.path = e.1) :
    (files.compiledVariant.entries =
        files.values.map (fun file ↦ (file.asEmitted.path, file.asEmitted)) ↔
      ∀ stem, ¬ (stem ++ ".ts".toList ∈ files.keys ∧ stem ++ ".js".toList ∈ files.keys) ∧
        ¬ (stem ++ ".tsx".toList ∈ files.keys ∧ stem ++ ".jsx".toList ∈ files.keys)) ∧
    files.compiledVariant.keys = (files.keys.map emittedName).eraseDups ∧
    ∀ name, files.compiledVariant.get? name =
      (files.values.map SourceFile.asEmitted).reverse.find? fun file ↦ file.path = name := by
  refine ⟨?_, ?_, fun name ↦ ?_⟩
  · rw [entries_compiledVariant_iff_nodup hpaths, nodup_map_emittedName_iff]
    constructor
    · intro h stem
      constructor
      · rintro ⟨hsource, hscript⟩
        exact h _ hsource _ hscript ⟨stem, .inl ⟨rfl, rfl⟩⟩
      · rintro ⟨hsource, hscript⟩
        exact h _ hsource _ hscript ⟨stem, .inr ⟨rfl, rfl⟩⟩
    · rintro h _ hsource _ hscript ⟨stem, ⟨rfl, rfl⟩ | ⟨rfl, rfl⟩⟩
      · exact (h stem).1 ⟨hsource, hscript⟩
      · exact (h stem).2 ⟨hsource, hscript⟩
  · rw [map_emittedName_keys hpaths, compiledVariant_eq, Table.keys_ofList]
  · rw [compiledVariant_eq, Table.get?_ofList, ← List.map_reverse, ← List.map_reverse,
      List.find?_map, List.find?_map, Option.map_map]
    rfl

/-- A script stands beside a source of another script, and a declaration beside a source. -/
theorem compiledVariant_complete_sample :
    (∀ e ∈ (ofBlock ['d'] defaultFileName
        "// file: a.ts\nx\n// file: a.jsx\ny\n// file: a.d.ts noEmit\nz".toList).entries,
      e.2.path = e.1) ∧
    (ofBlock ['d'] defaultFileName
      "// file: a.ts\nx\n// file: a.jsx\ny\n// file: a.d.ts noEmit\nz".toList).compiledVariant.get?
        "d/a.js".toList = some ⟨"d/a.js".toList, ['x'], false⟩ := by
  have hpaths : ∀ e ∈ (ofBlock ['d'] defaultFileName
      "// file: a.ts\nx\n// file: a.jsx\ny\n// file: a.d.ts noEmit\nz".toList).entries,
        e.2.path = e.1 := by decide
  exact ⟨hpaths, ((compiledVariant_complete_iff _ hpaths).2.2 _).trans (by decide)⟩

/-- Of a source and its own script, both to be shown, the compiled variant has only the script. -/
theorem compiledVariant_loses_source :
    (ofBlock ['d'] defaultFileName "// file: a.ts\nx\n// file: a.js\ny".toList).entries =
      [("d/a.ts".toList, ⟨"d/a.ts".toList, "x\n".toList, false⟩),
        ("d/a.js".toList, ⟨"d/a.js".toList, ['y'], false⟩)] ∧
    (ofBlock ['d'] defaultFileName
      "// file: a.ts\nx\n// file: a.js\ny".toList).compiledVariant.entries =
        [("d/a.js".toList, ⟨"d/a.js".toList, ['y'], false⟩)] := by
  decide

end FileSet

end FencedCode
