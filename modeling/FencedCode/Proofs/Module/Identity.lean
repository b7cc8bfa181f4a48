import FencedCode.Proofs.Module.Ascent
import FencedCode.Proofs.Path.Child

/-!
# The identity of a package

A module from an installed package has the name and the version of the manifest at the place where
it was found. The file inside the package is cut off its name by letters: what the name has behind
the place, without the separators in front. This names the file inside the place when the name goes
on behind the place with one separator, and lies in the place exactly then. A file beside the place
whose name only begins like the place is named as if it were inside.
-/

namespace FencedCode

open FencedCode.Path (IsNamed dotDot normalize parent rooted slash stack)
open Installed (innerPath packagesFolder searchFolders targetIn)

/-! ## Files in a folder -/

namespace Path

/-- The name leads through the folder and down from there. -/
def LiesIn (folder file : Text) : Prop :=
  rooted file = rooted folder ∧
    ∃ upper, upper ≠ [] ∧ dotDot ∉ upper ∧ stack file = upper ++ stack folder

/-- Of normal forms, those lie in a folder that go on behind it with a separator. -/
theorem liesIn_iff_of_normal {folder file : Text} (hfolder : IsNamed folder)
    (htop : (stack folder).head? ≠ some dotDot) (hfile : normalize file = file) :
    LiesIn folder file ↔ folder ++ slash <+: file := by
  constructor
  · rintro ⟨hrooted, upper, hne, -, hstack⟩
    rw [eq_render_of_normal hfile, eq_render_of_normal hfolder.normal, hrooted,
      render_append_slash_prefix_iff (isProper_of_mem_stack folder) (isProper_of_mem_stack file)
        hfolder.stack_ne_nil]
    exact ⟨upper, hne, hstack⟩
  · rintro ⟨rest, rfl⟩
    rw [slash, List.append_assoc, List.singleton_append] at hfile ⊢
    have hplain := (hfolder.normalize_append_slash_iff htop).mp hfile
    refine ⟨rooted_append hfolder.ne_nil _, _, ?_, ?_,
      stack_append_slash_of_isPlain hfolder.ne_nil hplain⟩
    · exact mt List.reverse_eq_nil_iff.mp (List.splitOn_ne_nil '/' rest)
    · exact fun hup ↦ (hplain dotDot (List.mem_reverse.mp hup)).ne_dotDot rfl

end Path

namespace Installed

/-! ## Places of packages -/

theorem packagesFolder_eq (folder : Text) : packagesFolder folder =
    (if folder = slash then [] else folder) ++ '/' :: "node_modules".toList := by
  unfold packagesFolder
  split <;> rfl

theorem packagesFolder_ne_nil (folder : Text) : packagesFolder folder ≠ [] := by
  rw [packagesFolder_eq]
  simp

theorem head?_stack_packagesFolder (folder : Text) :
    (stack (packagesFolder folder)).head? = some "node_modules".toList := by
  rw [packagesFolder_eq]
  by_cases hnil : (if folder = slash then [] else folder) = []
  · rw [hnil]
    decide
  · rw [Path.IsPlain.stack_append_slash (by decide) hnil, List.head?_cons]

/-- A place that is a normal form is one of a folder that is a normal form, and it ends with a
segment that names something. -/
theorem isNamed_packagesFolder_of_normal {folder rest : Text}
    (h : normalize (packagesFolder folder ++ '/' :: rest) = packagesFolder folder ++ '/' :: rest) :
    IsNamed (packagesFolder folder ++ '/' :: rest) ∧
      (stack (packagesFolder folder ++ '/' :: rest)).head? ≠ some dotDot := by
  have hfolder := Path.isNamed_of_normal_append_slash h (packagesFolder_ne_nil folder)
  have htop : (stack (packagesFolder folder)).head? ≠ some dotDot := by
    rw [head?_stack_packagesFolder]
    decide
  have hplain := (hfolder.normalize_append_slash_iff htop).mp h
  obtain ⟨first, others, hsplit⟩ := List.exists_cons_of_ne_nil
    (mt List.reverse_eq_nil_iff.mp (List.splitOn_ne_nil '/' rest))
  have hfirst : first ∈ rest.splitOn '/' := List.mem_reverse.mp (hsplit ▸ List.mem_cons_self)
  have hjoined := hfolder.append_joined hplain (List.splitOn_ne_nil '/' rest)
  rw [slash, List.intercalate_splitOn] at hjoined
  refine ⟨hjoined, ?_⟩
  rw [Path.stack_append_slash_of_isPlain hfolder.ne_nil hplain, hsplit, List.cons_append,
    List.head?_cons]
  exact fun hsame ↦ (hplain first hfirst).ne_dotDot (Option.some.inj hsame)

/-! ## The path inside a package -/

/-- The file lies at the path inside the place, or outside of it, and then there is no path. -/
structure NamesInside (root file inner : Text) : Prop where
  eq_of_liesIn : Path.LiesIn root file → file = root ++ '/' :: inner
  eq_nil_of_not_liesIn : ¬ Path.LiesIn root file → inner = []

theorem innerPath_append (root rest : Text) :
    innerPath root (root ++ rest) = rest.dropWhile (· = '/') := by
  rw [innerPath, Text.stripStart?_eq_some_iff.mpr rfl]

theorem innerPath_eq_nil {root file : Text} (h : ¬ root <+: file) :
    innerPath root file = [] := by
  unfold innerPath
  split
  · rename_i rest hrest
    exact absurd ⟨rest, (Text.stripStart?_eq_some_iff.mp hrest).symm⟩ h
  · rfl

theorem append_slash_prefix_iff {root file : Text} :
    root ++ slash <+: file ↔ ∃ rest, file = root ++ '/' :: rest := by
  simp only [List.IsPrefix, slash, List.append_assoc, List.singleton_append, eq_comm]

variable {root file : Text}

theorem eq_nil_of_innerPath_eq_nil {rest : Text} (hfile : (root ++ rest).getLast? ≠ some '/')
    (h : innerPath root (root ++ rest) = []) : rest = [] := by
  rw [innerPath_append, List.dropWhile_eq_nil_iff] at h
  by_contra hne
  have hlast := h _ (List.getLast_mem hne)
  rw [decide_eq_true_eq] at hlast
  rw [List.getLast?_append_of_ne_nil _ hne, List.getLast?_eq_some_getLast hne, hlast] at hfile
  exact hfile rfl

theorem head?_innerPath_ne (root file : Text) : (innerPath root file).head? ≠ some '/' := by
  by_cases hprefix : root <+: file
  · obtain ⟨rest, rfl⟩ := hprefix
    intro hhead
    rw [innerPath_append] at hhead
    have hfirst := List.head?_dropWhile_not (fun c ↦ decide (c = '/')) rest
    rw [hhead] at hfirst
    exact absurd hfirst (by simp)
  · rw [innerPath_eq_nil hprefix]
    simp

/-- The path inside the place is right exactly when the name of the file goes on behind the place
with one separator, if it begins with the place and is not the place itself, and when the files that
lie in the place are those whose names go on with a separator. -/
theorem namesInside_innerPath_iff (hfile : file.getLast? ≠ some '/') :
    NamesInside root file (innerPath root file) ↔
      (root <+: file → file = root ∨
        ∃ rest, file = root ++ '/' :: rest ∧ rest.head? ≠ some '/') ∧
      (Path.LiesIn root file ↔ root ++ slash <+: file) := by
  rw [append_slash_prefix_iff]
  constructor
  · intro h
    refine ⟨?_, fun hlies ↦ ⟨_, h.eq_of_liesIn hlies⟩, ?_⟩
    · rintro ⟨rest, rfl⟩
      by_cases hlies : Path.LiesIn root (root ++ rest)
      · exact .inr ⟨_, h.eq_of_liesIn hlies, head?_innerPath_ne _ _⟩
      · left
        rw [eq_nil_of_innerPath_eq_nil hfile (h.eq_nil_of_not_liesIn hlies), List.append_nil]
    · rintro ⟨rest, rfl⟩
      by_contra hlies
      exact absurd (eq_nil_of_innerPath_eq_nil hfile (h.eq_nil_of_not_liesIn hlies))
        (List.cons_ne_nil _ _)
  · rintro ⟨hboundary, hlies⟩
    have hinside {rest : Text} (h : file = root ++ '/' :: rest) : ∃ rest,
        file = root ++ '/' :: rest ∧ rest.head? ≠ some '/' := by
      refine (hboundary ⟨_, h.symm⟩).resolve_left fun hsame ↦ ?_
      rw [hsame] at h
      exact absurd (List.append_right_eq_self.mp h.symm) (List.cons_ne_nil _ _)
    refine ⟨fun h ↦ ?_, fun h ↦ ?_⟩
    · obtain ⟨_, hrest⟩ := hlies.mp h
      obtain ⟨rest, rfl, hhead⟩ := hinside hrest
      rw [innerPath_append, List.dropWhile_cons_of_pos (by simp)]
      cases rest with
      | nil => rfl
      | cons c rest =>
        rw [List.dropWhile_cons_of_neg]
        simpa using hhead
    · by_cases hprefix : root <+: file
      · rcases hboundary hprefix with rfl | ⟨rest, hrest, -⟩
        · have hself := innerPath_append file []
          rwa [List.append_nil] at hself
        · exact absurd (hlies.mpr ⟨rest, hrest⟩) h
      · exact innerPath_eq_nil hprefix

/-- Of normal forms, only a file beside the place whose name begins like the place is named
wrongly. -/
theorem namesInside_innerPath_iff_of_normal (hroot : IsNamed root)
    (htop : (stack root).head? ≠ some dotDot) (hnormal : normalize file = file)
    (hfile : file.getLast? ≠ some '/') :
    NamesInside root file (innerPath root file) ↔
      (root <+: file → file = root ∨ root ++ slash <+: file) := by
  have hlies := Path.liesIn_iff_of_normal hroot htop hnormal
  rw [namesInside_innerPath_iff hfile, and_iff_left hlies]
  refine imp_congr_right fun _ ↦ or_congr_right ?_
  rw [append_slash_prefix_iff]
  refine exists_congr fun rest ↦ and_iff_left_of_imp ?_
  rintro rfl hhead
  have hplain := (hroot.normalize_append_slash_iff htop).mp hnormal
  obtain ⟨tail, rfl⟩ := List.head?_eq_some_iff.mp hhead
  have hsplit : ('/' :: tail).splitOn '/' = [] :: tail.splitOn '/' := Path.segments_slash_cons tail
  rw [hsplit] at hplain
  exact (hplain [] List.mem_cons_self).ne_nil rfl

end Installed

/-! ## The identity -/

theorem FileView.Confirms.getLast?_file_ne {v : FileView} {m : ResolvedModule} (h : v.Confirms m) :
    m.file.getLast? ≠ some '/' := by
  obtain ⟨front, hfront⟩ := h.kind.suffix
  have hending : m.kind.ending ≠ [] ∧ m.kind.ending.getLast? ≠ some '/' := by
    cases m.kind <;> decide
  rw [← hfront, List.getLast?_append_of_ne_nil _ hending.1]
  exact hending.2

theorem FileView.mem_packagePlaces {v : FileView} {package types root : Text} {folders : List Text}
    (h : root ∈ v.packagePlaces package types folders) :
    ∃ above ∈ folders, ∃ name, (name = package ∨ name = types) ∧
      root = packagesFolder above ++ '/' :: name := by
  obtain ⟨above, habove, hroot⟩ := List.mem_flatMap.mp h
  split at hroot
  · rcases List.mem_pair.mp hroot with rfl | rfl
    · exact ⟨above, habove, package, .inl rfl, rfl⟩
    · exact ⟨above, habove, types, .inr rfl, rfl⟩
  · exact absurd hroot List.not_mem_nil

theorem Installed.exists_manifest_of_package {root file : Text} {manifest? : Option Lookup.Manifest}
    {id : PackageId} (h : (Installed.ofFile root (manifest?.getD .empty) file).package = some id) :
    id.inner = innerPath root file ∧ ∃ manifest, manifest? = some manifest ∧
      manifest.name = some id.name ∧ manifest.version = some id.version := by
  cases manifest? with
  | none => exact absurd h (by simp [Installed.ofFile, Lookup.Manifest.empty])
  | some manifest =>
    obtain ⟨name, version, types, typings⟩ := manifest
    cases name with
    | none => exact absurd h (by simp [Installed.ofFile])
    | some name =>
      cases version with
      | none => exact absurd h (by simp [Installed.ofFile])
      | some version =>
        obtain rfl := Option.some.inj h
        exact ⟨rfl, _, rfl, rfl, rfl⟩

variable {config : ResolverConfig} {name importer : Text} {v : FileView} {m : ResolvedModule}

/-- A module from an installed package is what the first place of its package has. -/
theorem findsFirst_of_installed (hm : v.eval (config.resolver name importer) = some m)
    (hinstalled : m.installed = true) :
    v.FindsFirst (PackageName.split name).2
      (v.packagePlaces (PackageName.split name).1
        (PackageName.declarations (PackageName.split name).1)
        (searchFolders (normalize (parent importer)))) m := by
  obtain ⟨hown, -⟩ := (confirms_of_resolved hm).2.1.mp hinstalled
  rw [eval_resolver, hown] at hm
  dsimp only at hm
  split at hm
  · exact absurd hm (Option.some_ne_none m).symm
  · rwa [FileView.eval_installed, FileView.findSome?_packageIn,
      FileView.findSome?_packageAt_eq_some_iff] at hm

/-- The identity of a module has the name and the version of the manifest at the first place that
has the file. Its path inside the package is right exactly when the name of the file, if it begins
with the place and is not the place itself, goes on with one separator, and when the files that lie
in the place are those whose names go on with a separator. Of normal forms only a file beside the
place, with a name that begins like the place, is named wrongly. -/
theorem package_identity (config : ResolverConfig) (name importer : Text) (v : FileView)
    (m : ResolvedModule) (id : PackageId)
    (hm : v.eval (config.resolver name importer) = some m) (hid : m.package = some id) :
    ∃ package inner types earlier root later manifest,
      PackageName.Begins name package inner ∧ PackageName.Declares package types ∧
      v.packagePlaces package types (searchFolders (normalize (parent importer))) =
        earlier ++ root :: later ∧
      (∀ place ∈ earlier, (v.places (targetIn inner place)).find? v.fileExists = none) ∧
      (v.places (targetIn inner root)).find? v.fileExists = some m.file ∧
      v.manifest root = some manifest ∧ manifest.name = some id.name ∧
      manifest.version = some id.version ∧
      (Installed.NamesInside root m.file id.inner ↔
        (root <+: m.file → m.file = root ∨
          ∃ rest, m.file = root ++ '/' :: rest ∧ rest.head? ≠ some '/') ∧
        (Path.LiesIn root m.file ↔ root ++ slash <+: m.file)) ∧
      (normalize root = root → normalize m.file = m.file →
        (Installed.NamesInside root m.file id.inner ↔
          (root <+: m.file → m.file = root ∨ root ++ slash <+: m.file))) := by
  obtain ⟨hconfirms, -⟩ := confirms_of_resolved hm
  have hinstalled := hconfirms.installed_of_package (by rw [hid]; rfl)
  obtain ⟨earlier, root, later, file, hplaces, hearlier, hfile, rfl⟩ :=
    findsFirst_of_installed hm hinstalled
  obtain ⟨hinner, manifest, hmanifest, hname, hversion⟩ :=
    Installed.exists_manifest_of_package hid
  refine ⟨_, _, _, earlier, root, later, manifest, PackageName.begins_split name,
    PackageName.declares_declarations _, hplaces, hearlier, hfile, hmanifest, hname, hversion, ?_,
    fun hroot hnormal ↦ ?_⟩
  · rw [hinner]
    exact Installed.namesInside_innerPath_iff hconfirms.getLast?_file_ne
  · have hmem : root ∈ earlier ++ root :: later := List.mem_append_right _ List.mem_cons_self
    rw [← hplaces] at hmem
    obtain ⟨above, -, _, -, rfl⟩ := FileView.mem_packagePlaces hmem
    obtain ⟨hnamed, htop⟩ := Installed.isNamed_packagesFolder_of_normal hroot
    rw [hinner]
    exact Installed.namesInside_innerPath_iff_of_normal hnamed htop hnormal
      hconfirms.getLast?_file_ne

theorem package_identity_samplePackages :
    ∃ m id, samplePackages.eval ((ResolverConfig.mk none []).resolver "lib".toList
        "/p/a.ts".toList) = some m ∧ m.package = some id ∧
      m.file = "/node_modules/lib/index.d.ts".toList ∧
      Installed.NamesInside "/node_modules/lib".toList m.file id.inner := by
  have hm : samplePackages.eval ((ResolverConfig.mk none []).resolver "lib".toList
      "/p/a.ts".toList) = some ⟨"/node_modules/lib/index.d.ts".toList, .declaration, true,
        some ⟨"lib".toList, "index.d.ts".toList, "1".toList⟩⟩ := by decide +kernel
  obtain ⟨_, _, _, _, root, _, manifest, -, -, -, -, -, hmanifest, -, -, -, hnormal⟩ :=
    package_identity _ _ _ _ _ _ hm rfl
  have hroot : root = "/node_modules/lib".toList := by
    obtain ⟨text, htext, -⟩ := Option.bind_eq_some_iff.mp hmanifest
    have hpath : root ++ "/package.json".toList =
        "/node_modules/lib".toList ++ "/package.json".toList := by
      by_contra hne
      exact absurd ((if_neg hne).symm.trans htext) (Option.some_ne_none text).symm
    exact List.append_cancel_right hpath
  subst hroot
  exact ⟨_, _, hm, rfl, rfl, (hnormal (by decide) (by decide)).mpr (by decide)⟩

/-- A package whose manifest names types beside the package, in a folder whose name begins like the
name of the package. -/
def neighbouringTypes : FileView where
  fileExists path := path = "/node_modules/lib-types/index.d.ts".toList
  folderExists path := path = "/node_modules".toList ∨ path = "/node_modules/lib".toList
  readText path :=
    if path = "/node_modules/lib/package.json".toList then
      some ("\x7b\"name\":\"lib\",\"version\":\"1\"," ++
        "\"types\":\"../lib-types/index.d.ts\"\x7d").toList
    else none

/-- The file does not lie in the package, and has a path inside it all the same. -/
theorem identity_of_neighbour :
    neighbouringTypes.eval ((ResolverConfig.mk none []).resolver "lib".toList "/a.ts".toList) =
        some ⟨"/node_modules/lib-types/index.d.ts".toList, .declaration, true,
          some ⟨"lib".toList, "-types/index.d.ts".toList, "1".toList⟩⟩ ∧
      ¬ Path.LiesIn "/node_modules/lib".toList "/node_modules/lib-types/index.d.ts".toList ∧
      ¬ Installed.NamesInside "/node_modules/lib".toList
        "/node_modules/lib-types/index.d.ts".toList "-types/index.d.ts".toList := by
  have hlies : ¬ Path.LiesIn "/node_modules/lib".toList
      "/node_modules/lib-types/index.d.ts".toList := by
    rintro ⟨-, upper, -, -, hstack⟩
    have hsuffix : stack "/node_modules/lib".toList <:+
        stack "/node_modules/lib-types/index.d.ts".toList := ⟨upper, hstack.symm⟩
    exact absurd hsuffix (by decide)
  refine ⟨by decide +kernel, hlies, fun h ↦ ?_⟩
  exact absurd (h.eq_nil_of_not_liesIn hlies) (by decide)

end FencedCode
