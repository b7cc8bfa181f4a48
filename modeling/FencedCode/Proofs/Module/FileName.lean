import FencedCode.Proofs.Module.Identity

/-!
# Names of resolved files

A path that is in normal form stands for files whose names are in normal form, but for the index
files of the current folder and of the root, which are written with a separator that is no part of
the normal form. Files of the project are looked up at normal forms. In packages the module name is
put behind the folder as it is spelled, so a segment of it that is void, leads up or has a backslash
comes back in the name of the file, and so does the dot of the current folder.
-/

namespace FencedCode

open FencedCode.Path (IsNamed IsPlain dot dotDot normalize parent slash)
open Installed (packagesFolder searchFolders targetIn)
open Lookup (asFile asIndex sourceEndings withoutEmitted)

/-! ## Files of a path -/

namespace Lookup

theorem isPlain_append_ending {last ending : Text} (hslash : '/' ∉ last) (hbackslash : '\\' ∉ last)
    (hending : ending ∈ sourceEndings) : IsPlain (last ++ ending) := by
  have hchars : 2 < ending.length ∧ '/' ∉ ending ∧ '\\' ∉ ending := by
    revert ending
    decide
  obtain ⟨hlength, hslash', hbackslash'⟩ := hchars
  have hne {s : Text} (hs : s.length ≤ 2) : last ++ ending ≠ s := by
    rintro rfl
    rw [List.length_append] at hs
    omega
  refine ⟨⟨hne (by decide), hne (by decide), ?_⟩, hne (by decide), ?_⟩
  · rw [List.mem_append, not_or]
    exact ⟨hslash, hslash'⟩
  · rw [List.mem_append, not_or]
    exact ⟨hbackslash, hbackslash'⟩

theorem exists_eq_withoutEmitted_append (path : Text) :
    ∃ tail, path = withoutEmitted path ++ tail ∧ '/' ∉ tail := by
  unfold withoutEmitted
  split
  · rename_i hjs
    obtain ⟨front, rfl⟩ := hjs
    exact ⟨".js".toList, by simp, by decide⟩
  · split
    · rename_i hjsx
      obtain ⟨front, rfl⟩ := hjsx
      exact ⟨".jsx".toList, by simp, by decide⟩
    · exact ⟨[], (List.append_nil path).symm, List.not_mem_nil⟩

/-- The end of the last segment of a normal form can be replaced by an ending. -/
theorem normal_append_ending {front tail ending : Text}
    (h : normalize (front ++ tail) = front ++ tail) (htail : '/' ∉ tail)
    (hending : ending ∈ sourceEndings) : normalize (front ++ ending) = front ++ ending := by
  have hbackslash := Path.backslash_notMem_of_normal h
  rw [List.mem_append, not_or] at hbackslash
  by_cases hmem : '/' ∈ front
  · obtain ⟨folder, last, rfl, hlast⟩ := Path.exists_eq_append_slash hmem
    have hplain : IsPlain (last ++ ending) :=
      isPlain_append_ending hlast (fun h ↦ hbackslash.1 (by simp [h])) hending
    have hlastTail : '/' ∉ last ++ tail := by
      rw [List.mem_append, not_or]
      exact ⟨hlast, htail⟩
    rw [List.append_assoc, List.cons_append] at h ⊢
    rcases Path.eq_nil_or_isNamed_of_normal h hlastTail with rfl | hnamed
    · exact hplain.normalize_slash_cons
    · exact (hnamed.append_slash hplain).normal
  · exact (isPlain_append_ending hmem hbackslash.1 hending).normalize_eq

/-- The files that a normal form may be have normal forms as their names. -/
theorem normal_of_mem_asFile {path file : Text} (hpath : normalize path = path)
    (hfile : file ∈ asFile path) : normalize file = file := by
  rcases List.mem_append.mp hfile with hself | hsource
  · split at hself
    · rwa [List.mem_singleton.mp hself]
    · exact absurd hself List.not_mem_nil
  · obtain ⟨ending, hending, rfl⟩ := List.mem_map.mp hsource
    obtain ⟨tail, htail, hslash⟩ := exists_eq_withoutEmitted_append path
    rw [htail] at hpath
    exact normal_append_ending hpath hslash hending

/-- The files that a path may be lie in the folder of the path. -/
theorem exists_of_mem_asFile {folder last file : Text} (h : file ∈ asFile (folder ++ '/' :: last)) :
    ∃ rest, file = folder ++ '/' :: rest := by
  rcases List.mem_append.mp h with hself | hsource
  · split at hself
    · exact ⟨last, List.mem_singleton.mp hself⟩
    · exact absurd hself List.not_mem_nil
  · obtain ⟨ending, -, rfl⟩ := List.mem_map.mp hsource
    obtain ⟨tail, htail, hslash⟩ := exists_eq_withoutEmitted_append (folder ++ '/' :: last)
    generalize withoutEmitted (folder ++ '/' :: last) = front at htail
    rw [List.append_eq_append_iff] at htail
    rcases htail with ⟨more, rfl, hmore⟩ | ⟨more, rfl, rfl⟩
    · cases more with
      | nil =>
        rw [List.nil_append] at hmore
        exact absurd (hmore ▸ List.mem_cons_self) hslash
      | cons c more =>
        obtain ⟨rfl, -⟩ := List.cons.inj hmore
        exact ⟨more ++ ending, by simp⟩
    · exact absurd (List.mem_append_right more List.mem_cons_self) hslash

theorem exists_of_mem_asIndex {folder file : Text} (h : file ∈ asIndex folder) :
    ∃ last, IsPlain last ∧ file = folder ++ '/' :: last := by
  obtain ⟨ending, hending, rfl⟩ := List.mem_map.mp h
  refine ⟨"index".toList ++ ending, isPlain_append_ending (by decide) (by decide) hending, ?_⟩
  rw [List.append_assoc]
  rfl

theorem normal_iff_of_mem_asIndex {folder file : Text} (hne : folder ≠ [])
    (h : file ∈ asIndex folder) : normalize file = file ↔ IsNamed folder := by
  obtain ⟨last, hlast, rfl⟩ := exists_of_mem_asIndex h
  exact Path.normalize_append_slash_iff hlast hne

/-- The file is an index of the current folder or of the root. -/
def IsTopIndex (file : Text) : Prop := file ∈ asIndex dot ∨ file ∈ asIndex slash

instance (file : Text) : Decidable (IsTopIndex file) := inferInstanceAs (Decidable (_ ∨ _))

theorem not_normal_of_isTopIndex {file : Text} (h : IsTopIndex file) : normalize file ≠ file := by
  intro hnormal
  rcases h with hdot | hslash
  · exact ((normal_iff_of_mem_asIndex (by decide) hdot).mp hnormal).ne_dot rfl
  · exact ((normal_iff_of_mem_asIndex (by decide) hslash).mp hnormal).ne_slash rfl

theorem normal_of_mem_asIndex {folder file : Text} (hfolder : normalize folder = folder)
    (h : file ∈ asIndex folder) (htop : ¬ IsTopIndex file) : normalize file = file := by
  have hnamed : IsNamed folder := by
    refine ⟨hfolder, ?_, ?_⟩
    · rintro rfl
      exact htop (.inr h)
    · rintro rfl
      exact htop (.inl h)
  exact (normal_iff_of_mem_asIndex hnamed.ne_nil h).mpr hnamed

end Lookup

open Lookup (IsTopIndex)

namespace FileView

variable {v : FileView} {path file : Text}

/-- The file is one that the path may mean, by its own name or as the index of a folder, or it is
one that the manifest of the folder names. -/
theorem mem_places_cases (h : file ∈ v.places path) :
    file ∈ asFile path ∨ file ∈ asIndex path ∨
      ∃ entry, file ∈ asFile (Path.join path entry) ∨ file ∈ asIndex (Path.join path entry) := by
  rcases List.mem_append.mp h with hfile | hfolder
  · exact .inl hfile
  · split at hfolder
    · rcases List.mem_append.mp hfolder with htypes | hindex
      · split at htypes
        · rename_i entry _
          exact .inr (.inr ⟨entry, List.mem_append.mp htypes⟩)
        · exact absurd htypes List.not_mem_nil
      · exact .inr (.inl hindex)
    · exact absurd hfolder List.not_mem_nil

theorem normal_of_mem_join {entry : Text} (htop : ¬ IsTopIndex file)
    (h : file ∈ asFile (Path.join path entry) ∨ file ∈ asIndex (Path.join path entry)) :
    normalize file = file := by
  rcases h with hfile | hindex
  · exact Lookup.normal_of_mem_asFile (Path.normalize_join path entry) hfile
  · exact Lookup.normal_of_mem_asIndex (Path.normalize_join path entry) hindex htop

/-- What a normal form stands for has a normal form as its name, except an index at the top. -/
theorem normal_iff_of_mem_places (hpath : normalize path = path) (h : file ∈ v.places path) :
    normalize file = file ↔ ¬ IsTopIndex file := by
  refine ⟨fun hnormal htop ↦ Lookup.not_normal_of_isTopIndex htop hnormal, fun htop ↦ ?_⟩
  rcases mem_places_cases h with hfile | hindex | ⟨entry, hentry⟩
  · exact Lookup.normal_of_mem_asFile hpath hfile
  · exact Lookup.normal_of_mem_asIndex hpath hindex htop
  · exact normal_of_mem_join htop hentry

end FileView

/-! ## Files of the project -/

theorem ResolverConfig.normal_of_mem_ownPaths {config : ResolverConfig} {name importer path : Text}
    (h : path ∈ config.ownPaths name importer) : normalize path = path := by
  unfold ownPaths mappedPaths at h
  split at h
  · rw [List.mem_singleton.mp h]
    exact Path.normalize_join _ _
  · rcases List.mem_append.mp h with hmapped | hbase
    · split at hmapped
      · obtain ⟨substitution, -, rfl⟩ := List.mem_map.mp hmapped
        exact Path.normalize_normalize _
      · exact absurd hmapped List.not_mem_nil
    · rw [Option.mem_toList, Option.map_eq_some_iff] at hbase
      obtain ⟨base, -, rfl⟩ := hbase
      exact Path.normalize_join base name

/-! ## Files of packages -/

namespace Installed

/-- The folders of a search that starts from a normal form are normal forms, and only a search from
the current folder looks there. -/
theorem normal_of_mem_searchFolders {current folder : Text} (hcurrent : normalize current = current)
    (h : folder ∈ searchFolders current) :
    normalize folder = folder ∧ (folder = dot → current = dot) := by
  induction current using upward_induction with
  | top current habove =>
    rw [searchFolders_of_not_hasAbove habove, List.mem_singleton] at h
    exact ⟨h ▸ hcurrent, fun hdot ↦ h ▸ hdot⟩
  | below current habove ih =>
    rw [searchFolders_of_hasAbove habove] at h
    rcases List.mem_cons.mp h with rfl | hmem
    · exact ⟨hcurrent, id⟩
    · obtain ⟨front, last, rfl, hlast⟩ := Path.exists_eq_append_slash habove.1
      rw [Path.parent_append_slash hlast] at ih hmem
      have hparent : normalize (if front = [] then slash else front) =
          (if front = [] then slash else front) ∧ (if front = [] then slash else front) ≠ dot := by
        rcases Path.eq_nil_or_isNamed_of_normal hcurrent hlast with rfl | hnamed
        · decide
        · rw [if_neg hnamed.ne_nil]
          exact ⟨hnamed.normal, hnamed.ne_dot⟩
      obtain ⟨hfolder, hdot⟩ := ih hparent.1 hmem
      exact ⟨hfolder, fun h ↦ absurd (hdot h) hparent.2⟩

theorem isNamed_packagesFolder_iff {folder : Text} (hfolder : normalize folder = folder) :
    IsNamed (packagesFolder folder) ↔ folder ≠ dot := by
  have hplain : IsPlain "node_modules".toList := by decide
  rw [packagesFolder_eq]
  by_cases hslash : folder = slash
  · subst hslash
    decide
  · rw [if_neg hslash]
    constructor
    · rintro h rfl
      exact absurd h (by decide)
    · intro hdot
      exact IsNamed.append_slash ⟨hfolder, hslash, hdot⟩ hplain

/-- A name behind the packages of a folder is a normal form when the folder is not the current one,
and all segments of the name are plain. -/
theorem normal_packagesFolder_iff {folder rest : Text} (hfolder : normalize folder = folder) :
    normalize (packagesFolder folder ++ '/' :: rest) = packagesFolder folder ++ '/' :: rest ↔
      folder ≠ dot ∧ ∀ s ∈ rest.splitOn '/', IsPlain s := by
  have htop : (Path.stack (packagesFolder folder)).head? ≠ some dotDot := by
    rw [head?_stack_packagesFolder]
    decide
  rw [← isNamed_packagesFolder_iff hfolder]
  constructor
  · intro h
    have hnamed := Path.isNamed_of_normal_append_slash h (packagesFolder_ne_nil folder)
    exact ⟨hnamed, (hnamed.normalize_append_slash_iff htop).mp h⟩
  · rintro ⟨hnamed, hplain⟩
    exact (hnamed.normalize_append_slash_iff htop).mpr hplain

/-- The path of a file in a package lies behind the packages of the folder. -/
theorem exists_targetIn_eq (inner : Option Text) (folder package : Text) :
    ∃ rest, targetIn inner (packagesFolder folder ++ '/' :: package) =
        packagesFolder folder ++ '/' :: rest ∧
      ((∀ s ∈ package.splitOn '/', IsPlain s) →
        (∀ path, inner = some path → ∀ s ∈ path.splitOn '/', IsPlain s) →
          ∀ s ∈ rest.splitOn '/', IsPlain s) := by
  cases inner with
  | none => exact ⟨package, rfl, fun h _ ↦ h⟩
  | some path =>
    refine ⟨package ++ '/' :: path, by simp [targetIn], fun hpackage hpath s hs ↦ ?_⟩
    rw [List.splitOn_append_cons_self] at hs
    exact (List.mem_append.mp hs).elim (hpackage s) (hpath path rfl s)

end Installed

/-- The importing file does not lie in the current folder, and the segments of the module name, and
of the package of declarations for it, are plain. -/
def PlainlyNamed (name importer : Text) : Prop :=
  normalize (parent importer) ≠ dot ∧ (∀ s ∈ name.splitOn '/', IsPlain s) ∧
    ∀ s ∈ (PackageName.declarations (PackageName.split name).1).splitOn '/', IsPlain s

theorem PackageName.forall_isPlain_split {name : Text} (h : ∀ s ∈ name.splitOn '/', IsPlain s) :
    (∀ s ∈ (split name).1.splitOn '/', IsPlain s) ∧
      ∀ path, (split name).2 = some path → ∀ s ∈ path.splitOn '/', IsPlain s := by
  have hbegins := begins_split name
  generalize (split name).1 = package at hbegins
  generalize (split name).2 = inner at hbegins
  cases hbegins with
  | whole _ => exact ⟨h, fun path hpath ↦ absurd hpath (by simp)⟩
  | @inside _ path hname _ =>
    rw [hname, List.splitOn_append_cons_self] at h
    refine ⟨fun s hs ↦ h s (List.mem_append_left _ hs), ?_⟩
    rintro _ ⟨⟩ s hs
    exact h s (List.mem_append_right _ hs)

/-! ## The names of resolved files -/

variable {config : ResolverConfig} {name importer : Text} {v : FileView} {m : ResolvedModule}

/-- A file from a package is one that a path behind the packages of some folder may mean. -/
theorem exists_place_of_installed (hm : v.eval (config.resolver name importer) = some m)
    (hinstalled : m.installed = true) :
    ∃ above ∈ searchFolders (normalize (parent importer)), ∃ rest,
      m.file ∈ v.places (packagesFolder above ++ '/' :: rest) ∧
      (PlainlyNamed name importer → ∀ s ∈ rest.splitOn '/', IsPlain s) := by
  obtain ⟨earlier, root, later, file, hplaces, -, hfile, rfl⟩ :=
    findsFirst_of_installed hm hinstalled
  have hmem : root ∈ earlier ++ root :: later := List.mem_append_right _ List.mem_cons_self
  rw [← hplaces] at hmem
  obtain ⟨above, habove, place, hplace, rfl⟩ := FileView.mem_packagePlaces hmem
  obtain ⟨rest, htarget, hplain⟩ :=
    Installed.exists_targetIn_eq (PackageName.split name).2 above place
  rw [htarget] at hfile
  refine ⟨above, habove, rest, List.mem_of_find?_eq_some hfile, ?_⟩
  rintro ⟨-, hname, htypes⟩
  obtain ⟨hpackage, hinner⟩ := PackageName.forall_isPlain_split hname
  rcases hplace with rfl | rfl
  · exact hplain hpackage hinner
  · exact hplain htypes hinner

theorem normal_file_iff_of_project (hm : v.eval (config.resolver name importer) = some m)
    (hproject : m.installed = false) : normalize m.file = m.file ↔ ¬ IsTopIndex m.file := by
  have hfirst := (confirms_of_resolved hm).2.2.mp hproject
  obtain ⟨path, hpath, hfile⟩ := List.exists_of_findSome?_eq_some hfirst
  rw [FileView.eval_fileOrFolder, FileView.candidates_eq_places] at hfile
  exact FileView.normal_iff_of_mem_places (ResolverConfig.normal_of_mem_ownPaths hpath)
    (List.mem_of_find?_eq_some hfile)

theorem normal_file_iff_of_plainlyNamed (hm : v.eval (config.resolver name importer) = some m)
    (hinstalled : m.installed = true) (hplain : PlainlyNamed name importer) :
    normalize m.file = m.file ↔ ¬ IsTopIndex m.file := by
  obtain ⟨above, habove, rest, hfile, hrest⟩ := exists_place_of_installed hm hinstalled
  obtain ⟨hnormal, hdot⟩ :=
    Installed.normal_of_mem_searchFolders (Path.normalize_normalize _) habove
  refine FileView.normal_iff_of_mem_places ?_ hfile
  exact (Installed.normal_packagesFolder_iff hnormal).mpr
    ⟨fun h ↦ hplain.1 (hdot h), hrest hplain⟩

theorem normal_file_iff_of_installed (hm : v.eval (config.resolver name importer) = some m)
    (hinstalled : m.installed = true) :
    normalize m.file = m.file ↔ ¬ IsTopIndex m.file ∧
      ∀ above ∈ searchFolders (normalize (parent importer)), ∀ rest,
        m.file = packagesFolder above ++ '/' :: rest →
          above ≠ dot ∧ ∀ s ∈ rest.splitOn '/', IsPlain s := by
  have hfolder {above : Text} (habove : above ∈ searchFolders (normalize (parent importer))) :
      normalize above = above :=
    (Installed.normal_of_mem_searchFolders (Path.normalize_normalize _) habove).1
  constructor
  · intro hnormal
    refine ⟨fun htop ↦ Lookup.not_normal_of_isTopIndex htop hnormal,
      fun above habove rest hfile ↦ ?_⟩
    rw [hfile] at hnormal
    exact (Installed.normal_packagesFolder_iff (hfolder habove)).mp hnormal
  · rintro ⟨htop, hspelled⟩
    obtain ⟨above, habove, rest, hfile, -⟩ := exists_place_of_installed hm hinstalled
    have hbehind {more : Text} (hmore : m.file = packagesFolder above ++ '/' :: more) :
        normalize m.file = m.file := by
      have hplain := hspelled above habove more hmore
      rw [hmore]
      exact (Installed.normal_packagesFolder_iff (hfolder habove)).mpr hplain
    rcases FileView.mem_places_cases hfile with hself | hindex | ⟨entry, hentry⟩
    · obtain ⟨more, hmore⟩ := Lookup.exists_of_mem_asFile hself
      exact hbehind hmore
    · obtain ⟨last, -, hlast⟩ := Lookup.exists_of_mem_asIndex hindex
      rw [List.append_assoc, List.cons_append] at hlast
      exact hbehind hlast
    · exact FileView.normal_of_mem_join htop hentry

/-- A resolved file of the project has a normal form as its name, unless it is an index of the
current folder or of the root. A file from a package has one exactly when it is no such index and
was not found by a name that, behind the packages of the folder, has a segment that is not plain, or
in the current folder. That it was not can be read off the module name and the importing file. Files
that are named in this way have one name if they have one normal form. -/
theorem normal_file_of_resolved (config : ResolverConfig) (name importer : Text) (v : FileView)
    (m : ResolvedModule) (hm : v.eval (config.resolver name importer) = some m) :
    (m.installed = false ∨ PlainlyNamed name importer →
      (normalize m.file = m.file ↔ ¬ IsTopIndex m.file)) ∧
    (m.installed = true → (normalize m.file = m.file ↔ ¬ IsTopIndex m.file ∧
      ∀ above ∈ searchFolders (normalize (parent importer)), ∀ rest,
        m.file = packagesFolder above ++ '/' :: rest →
          above ≠ dot ∧ ∀ s ∈ rest.splitOn '/', IsPlain s)) ∧
    ∀ (config' : ResolverConfig) (name' importer' : Text) (v' : FileView) (m' : ResolvedModule),
      v'.eval (config'.resolver name' importer') = some m' →
      (m.installed = false ∨ PlainlyNamed name importer) →
      (m'.installed = false ∨ PlainlyNamed name' importer') →
      ¬ IsTopIndex m.file → ¬ IsTopIndex m'.file →
        (m.file = m'.file ↔ normalize m.file = normalize m'.file) := by
  have hspelled {config : ResolverConfig} {name importer : Text} {v : FileView}
      {m : ResolvedModule} (hm : v.eval (config.resolver name importer) = some m)
      (hplain : m.installed = false ∨ PlainlyNamed name importer) :
      normalize m.file = m.file ↔ ¬ IsTopIndex m.file := by
    cases hinstalled : m.installed with
    | false => exact normal_file_iff_of_project hm hinstalled
    | true =>
      rw [hinstalled] at hplain
      exact normal_file_iff_of_plainlyNamed hm hinstalled (hplain.resolve_left (by simp))
  refine ⟨hspelled hm, normal_file_iff_of_installed hm, ?_⟩
  intro config' name' importer' v' m' hm' hplain hplain' htop htop'
  rw [(hspelled hm hplain).mpr htop, (hspelled hm' hplain').mpr htop']

/-- The file of a package is found by the name of the package and by its path. -/
theorem normal_file_of_samplePackages :
    ∃ m m', samplePackages.eval ((ResolverConfig.mk none []).resolver "lib".toList
        "/p/a.ts".toList) = some m ∧ m.installed = true ∧ normalize m.file = m.file ∧
      samplePackages.eval ((ResolverConfig.mk none []).resolver
        "../p/../node_modules//lib".toList "/p/a.ts".toList) = some m' ∧ m'.installed = false ∧
      m.file = m'.file := by
  have hm : samplePackages.eval ((ResolverConfig.mk none []).resolver "lib".toList
      "/p/a.ts".toList) = some ⟨"/node_modules/lib/index.d.ts".toList, .declaration, true,
        some ⟨"lib".toList, "index.d.ts".toList, "1".toList⟩⟩ := by decide +kernel
  have hm' : samplePackages.eval ((ResolverConfig.mk none []).resolver
      "../p/../node_modules//lib".toList "/p/a.ts".toList) =
        some ⟨"/node_modules/lib/index.d.ts".toList, .declaration, false, none⟩ := by
    decide +kernel
  have hplain : PlainlyNamed "lib".toList "/p/a.ts".toList :=
    ⟨by decide, by decide, by decide⟩
  obtain ⟨hnormal, hinstalled, hsame⟩ := normal_file_of_resolved _ _ _ _ _ hm
  have hfile := (hinstalled rfl).mp ((hnormal (.inr hplain)).mpr (by decide))
  exact ⟨_, _, hm, rfl, (hnormal (.inr hplain)).mpr hfile.1, hm', rfl,
    (hsame _ _ _ _ _ hm' (.inr hplain) (.inl rfl) hfile.1 hfile.1).mpr rfl⟩

/-- A file that lies in the current folder finds a package and one of its files under two names. -/
theorem two_names_of_one_file :
    ∃ m m', currentPackages.eval ((ResolverConfig.mk none []).resolver "lib".toList
        "a.ts".toList) = some m ∧
      currentPackages.eval ((ResolverConfig.mk none []).resolver
        "./node_modules/lib/index".toList "a.ts".toList) = some m' ∧
      normalize m.file ≠ m.file ∧ normalize m.file = normalize m'.file ∧ m.file ≠ m'.file :=
  ⟨⟨"./node_modules/lib/index.d.ts".toList, .declaration, true, none⟩,
    ⟨"node_modules/lib/index.d.ts".toList, .declaration, false, none⟩, by decide +kernel⟩

end FencedCode
