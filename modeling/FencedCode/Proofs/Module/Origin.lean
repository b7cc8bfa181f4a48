import FencedCode.Proofs.Workspace.Looking
import FencedCode.Proofs.Workspace.Version

/-!
# Where resolved modules come from

A name means paths in the project itself: the one that it spells, or those that it is mapped to and
the one below the base folder. When none of them stands for a file, a bare name is looked for in
the packages that are installed for the importing file. Whichever way a module is found, its file
exists and its kind is read off the name of the file, and only a module from an installed package is
marked as one and has an identity.
-/

namespace FencedCode

open ResolvedModule (ofFile?)

/-! ## Files of the project -/

namespace ResolverConfig

/-- The paths that a bare name is mapped to, and the one below the base folder. -/
def mappedPaths (config : ResolverConfig) (name : Text) : List Text :=
  (match Mapping.choose name config.mappings with
    | some (m, capture) => m.substitutions.map (Mapping.candidate capture)
    | none => []) ++ (config.baseUrl.map (Path.join · name)).toList

/-- The paths that a name means in the project itself, in the order in which they are tried. -/
def ownPaths (config : ResolverConfig) (name importer : Text) : List Text :=
  if Path.isRelative name || Path.isAbsolute name then [Path.join (Path.parent importer) name]
  else config.mappedPaths name

end ResolverConfig

namespace FileView

variable (v : FileView)

/-- The file of the first path that stands for one. -/
def firstFileAt (paths : List Text) : Option Text :=
  paths.findSome? fun path ↦ v.eval (Lookup.fileOrFolder path)

theorem firstFileAt_singleton (path : Text) :
    v.firstFileAt [path] = v.eval (Lookup.fileOrFolder path) := by
  rw [firstFileAt, List.findSome?_singleton]

theorem firstFileAt_append (paths others : List Text) :
    v.firstFileAt (paths ++ others) = (v.firstFileAt paths).or (v.firstFileAt others) :=
  List.findSome?_append

theorem eval_firstResolved (paths : List Text) :
    v.eval (Mapping.firstResolved paths) = v.firstFileAt paths := by
  induction paths with
  | nil => rfl
  | cons path rest ih =>
    rw [Mapping.firstResolved, eval_bind, firstFileAt, List.findSome?_cons, ← firstFileAt]
    cases v.eval (Lookup.fileOrFolder path) with
    | some found => rfl
    | none => exact ih

theorem eval_mapped (config : ResolverConfig) (name : Text) :
    v.eval (config.mapped name) = v.firstFileAt (config.mappedPaths name) := by
  have hmapping : v.eval (Mapping.resolve name config.mappings) = v.firstFileAt
      (match Mapping.choose name config.mappings with
        | some (m, capture) => m.substitutions.map (Mapping.candidate capture)
        | none => []) := by
    unfold Mapping.resolve
    split
    · rename_i hnone
      rw [hnone]
      rfl
    · rename_i m capture hsome
      rw [hsome]
      exact v.eval_firstResolved _
  rw [ResolverConfig.mapped, eval_bind, hmapping, ResolverConfig.mappedPaths, firstFileAt_append]
  cases v.firstFileAt _ with
  | some found => rfl
  | none =>
    rw [Option.none_or]
    cases config.baseUrl with
    | none => rfl
    | some base => exact (v.firstFileAt_singleton _).symm

variable {v} in
/-- The file of a path exists, and its name is that of a module. -/
theorem exists_ofFile?_of_firstFileAt {paths : List Text} {file : Text}
    (h : v.firstFileAt paths = some file) : v.fileExists file ∧
      ∃ kind, kind.IsKindOf file ∧ ofFile? file = some ⟨file, kind, false, none⟩ := by
  obtain ⟨path, -, hpath⟩ := List.exists_of_findSome?_eq_some h
  exact exists_ofFile?_of_eval_fileOrFolder hpath

end FileView

/-! ## Files of installed packages -/

namespace Installed

/-- The path of the file `inner` in the package at `root`, or of the package itself. -/
def targetIn (inner : Option Text) (root : Text) : Text :=
  match inner with
  | some path => root ++ '/' :: path
  | none => root

theorem firstPackage_cons (inner : Option Text) (root : Text) (rest : List Text) :
    firstPackage inner (root :: rest) = (do
      match ← Lookup.fileOrFolder (targetIn inner root) with
      | some file => return some (ofFile root ((← Lookup.manifest root).getD .empty) file)
      | none => firstPackage inner rest) := by
  cases inner <;> rfl

/-- The places of a package and of its declarations among the packages of a folder. -/
def roots (package folder : Text) : List Text :=
  [package, PackageName.declarations package].map fun name ↦ packagesFolder folder ++ '/' :: name

/-- The file is found for the name in a package that is installed in the folder or above it. -/
def InPackages (v : FileView) (name folder file : Text) : Prop :=
  ∃ above ∈ searchFolders (Path.normalize folder), v.folderExists (packagesFolder above) ∧
    ∃ root ∈ roots (PackageName.split name).1 above,
      v.eval (Lookup.fileOrFolder (targetIn (PackageName.split name).2 root)) = some file

end Installed

namespace FileView

open Installed (InPackages packagesFolder roots searchFolders targetIn)

variable (v : FileView)

/-- What the package at `root` has for the file `inner`. -/
def packageAt (inner : Option Text) (root : Text) : Option ResolvedModule :=
  (v.eval (Lookup.fileOrFolder (targetIn inner root))).map
    (Installed.ofFile root ((v.manifest root).getD .empty))

/-- What the packages that are installed in the folder have for the file `inner`. -/
def packageIn (package : Text) (inner : Option Text) (folder : Text) : Option ResolvedModule :=
  if v.folderExists (packagesFolder folder) then
    (roots package folder).findSome? (v.packageAt inner)
  else none

theorem eval_firstPackage (inner : Option Text) (places : List Text) :
    v.eval (Installed.firstPackage inner places) = places.findSome? (v.packageAt inner) := by
  induction places with
  | nil => rfl
  | cons root rest ih =>
    rw [Installed.firstPackage_cons, eval_bind, List.findSome?_cons, packageAt]
    cases v.eval (Lookup.fileOrFolder (targetIn inner root)) with
    | none => exact ih
    | some file =>
      show v.eval (Lookup.manifest root >>= fun m ↦
        pure (some (Installed.ofFile root (m.getD .empty) file))) = _
      rw [eval_bind, eval_manifest, eval_pure, Option.map_some]

theorem eval_firstFolder (package : Text) (inner : Option Text) (folders : List Text) :
    v.eval (Installed.firstFolder package inner folders) =
      folders.findSome? (v.packageIn package inner) := by
  induction folders with
  | nil => rfl
  | cons folder rest ih =>
    rw [Installed.firstFolder, eval_bind, eval_folderExists, eval_ite, ih, List.findSome?_cons,
      packageIn]
    by_cases hfolder : v.folderExists (packagesFolder folder)
    · rw [if_pos hfolder, if_pos hfolder, eval_bind, eval_firstPackage, ← roots]
      cases (roots package folder).findSome? (v.packageAt inner) with
      | some found => rfl
      | none => exact ih
    · rw [if_neg hfolder, if_neg hfolder]

/-- A bare name stands for what the nearest folder has that has the package. -/
theorem eval_installed (name folder : Text) : v.eval (Installed.resolve name folder) =
    (searchFolders (Path.normalize folder)).findSome?
      (v.packageIn (PackageName.split name).1 (PackageName.split name).2) :=
  v.eval_firstFolder _ _ _

/-! ## Modules that exist -/

/-- The file of the module exists, its kind is that of its name, and only a module from an installed
package has an identity. -/
structure Confirms (m : ResolvedModule) : Prop where
  fileExists : v.fileExists m.file
  kind : m.kind.IsKindOf m.file
  installed_of_package : m.package.isSome → m.installed = true

variable {v}

theorem confirms_of_ofFile? {file : Text} {m : ResolvedModule} (hfile : v.fileExists file)
    (h : ofFile? file = some m) : v.Confirms m ∧ m.file = file ∧ m.installed = false ∧
      m.package = none := by
  obtain ⟨kind, hkind, rfl⟩ := Option.map_eq_some_iff.mp h
  exact ⟨⟨hfile, FileKind.isKindOf_of_ofName? hkind, fun hpackage ↦ absurd hpackage (by simp)⟩,
    rfl, rfl, rfl⟩

theorem confirms_of_packageAt {inner : Option Text} {root : Text} {m : ResolvedModule}
    (h : v.packageAt inner root = some m) : v.Confirms m ∧ m.installed = true ∧
      v.eval (Lookup.fileOrFolder (targetIn inner root)) = some m.file := by
  obtain ⟨file, hfile, rfl⟩ := Option.map_eq_some_iff.mp h
  obtain ⟨hexists, kind, hkind, -⟩ := exists_ofFile?_of_eval_fileOrFolder hfile
  refine ⟨⟨hexists, ?_, fun _ ↦ rfl⟩, rfl, hfile⟩
  rw [Installed.ofFile, FileKind.ofName?_eq_some_iff.mpr hkind]
  exact hkind

/-- A module from the installed packages is one of a package that is installed for the folder. -/
theorem confirms_of_eval_installed {name folder : Text} {m : ResolvedModule}
    (h : v.eval (Installed.resolve name folder) = some m) :
    v.Confirms m ∧ m.installed = true ∧ InPackages v name folder m.file := by
  rw [eval_installed] at h
  obtain ⟨above, habove, hfound⟩ := List.exists_of_findSome?_eq_some h
  rw [packageIn] at hfound
  split at hfound
  · rename_i hfolder
    obtain ⟨root, hroot, hpackage⟩ := List.exists_of_findSome?_eq_some hfound
    obtain ⟨hconfirms, hinstalled, hfile⟩ := confirms_of_packageAt hpackage
    exact ⟨hconfirms, hinstalled, above, habove, hfolder, root, hroot, hfile⟩
  · exact absurd hfound (Option.some_ne_none m).symm

theorem eval_installed_eq_none_iff {name folder : Text} :
    v.eval (Installed.resolve name folder) = none ↔ ∀ file, ¬ InPackages v name folder file := by
  constructor
  · rintro h file ⟨above, habove, hfolder, root, hroot, hfile⟩
    rw [eval_installed, List.findSome?_eq_none_iff] at h
    have hnone := h above habove
    rw [packageIn, if_pos hfolder, List.findSome?_eq_none_iff] at hnone
    have hpackage := Option.map_eq_none_iff.mp (hnone root hroot)
    rw [hfile] at hpackage
    exact absurd hpackage (Option.some_ne_none file)
  · intro h
    cases hfound : v.eval (Installed.resolve name folder) with
    | none => rfl
    | some m => exact absurd (confirms_of_eval_installed hfound).2.2 (h m.file)

end FileView

/-! ## Resolution -/

open FileView (Confirms)

variable {config : ResolverConfig} {name importer : Text} {v : FileView}

/-- A file of the project is taken as it is, and only without one are packages looked at. -/
theorem eval_resolver (v : FileView) (config : ResolverConfig) (name importer : Text) :
    v.eval (config.resolver name importer) =
      match v.firstFileAt (config.ownPaths name importer) with
      | some file => ofFile? file
      | none =>
        if Path.isRelative name || Path.isAbsolute name then none
        else v.eval (Installed.resolve name (Path.parent importer)) := by
  rw [ResolverConfig.resolver, ResolverConfig.ownPaths]
  by_cases hpath : (Path.isRelative name || Path.isAbsolute name) = true
  · rw [if_pos hpath, if_pos hpath, FileView.firstFileAt_singleton, FileView.eval_bind,
      FileView.eval_pure, if_pos hpath]
    cases v.eval (Lookup.fileOrFolder (Path.join (Path.parent importer) name)) with
    | some file => rfl
    | none => rfl
  · rw [if_neg hpath, if_neg hpath, FileView.eval_bind, FileView.eval_mapped, if_neg hpath]
    cases hfile : v.firstFileAt (config.mappedPaths name) with
    | none => rfl
    | some file =>
      obtain ⟨-, kind, -, hmodule⟩ := FileView.exists_ofFile?_of_firstFileAt hfile
      rw [Option.bind_some, hmodule, FileView.eval_pure, ← hmodule]

/-- A file of the project is the file of the module. -/
theorem exists_module_of_firstFileAt {file : Text}
    (h : v.firstFileAt (config.ownPaths name importer) = some file) :
    ∃ m, v.eval (config.resolver name importer) = some m ∧ m.file = file ∧ v.Confirms m ∧
      m.installed = false := by
  obtain ⟨hexists, kind, -, hmodule⟩ := FileView.exists_ofFile?_of_firstFileAt h
  obtain ⟨hconfirms, hfile, hinstalled, -⟩ := FileView.confirms_of_ofFile? hexists hmodule
  have hfound : v.eval (config.resolver name importer) = ofFile? file := by rw [eval_resolver, h]
  exact ⟨_, hfound.trans hmodule, hfile, hconfirms, hinstalled⟩

/-- Without a file of the project, a module can only come from an installed package. -/
theorem confirms_of_eval_resolver {m : ResolvedModule}
    (hown : v.firstFileAt (config.ownPaths name importer) = none)
    (h : v.eval (config.resolver name importer) = some m) : v.Confirms m ∧ m.installed = true ∧
      Installed.InPackages v name (Path.parent importer) m.file := by
  rw [eval_resolver, hown] at h
  dsimp only at h
  split at h
  · exact absurd h (Option.some_ne_none m).symm
  · exact FileView.confirms_of_eval_installed h

theorem eval_resolver_eq_none_iff : v.eval (config.resolver name importer) = none ↔
    v.firstFileAt (config.ownPaths name importer) = none ∧
      (Path.isRelative name ∨ Path.isAbsolute name ∨
        ∀ file, ¬ Installed.InPackages v name (Path.parent importer) file) := by
  cases hown : v.firstFileAt (config.ownPaths name importer) with
  | some file =>
    obtain ⟨m, hm, -⟩ := exists_module_of_firstFileAt hown
    rw [hm]
    simp
  | none =>
    rw [eval_resolver, hown, ← or_assoc, ← Bool.or_eq_true, ← FileView.eval_installed_eq_none_iff]
    by_cases hpath : (Path.isRelative name || Path.isAbsolute name) = true
    · simp [hpath]
    · simp [hpath]

/-- A module that is found is marked as installed exactly when no file of the project was found, and
then the file is one of an installed package. -/
theorem confirms_of_resolved {m : ResolvedModule}
    (h : v.eval (config.resolver name importer) = some m) : v.Confirms m ∧
      (m.installed = true ↔ v.firstFileAt (config.ownPaths name importer) = none ∧
        Installed.InPackages v name (Path.parent importer) m.file) ∧
      (m.installed = false ↔ v.firstFileAt (config.ownPaths name importer) = some m.file) := by
  cases hown : v.firstFileAt (config.ownPaths name importer) with
  | some file =>
    obtain ⟨m', hm', rfl, hconfirms, hinstalled⟩ := exists_module_of_firstFileAt hown
    obtain rfl : m' = m := Option.some.inj (hm'.symm.trans h)
    exact ⟨hconfirms, by simp [hinstalled], by simp [hinstalled]⟩
  | none =>
    obtain ⟨hconfirms, hinstalled, hpackages⟩ := confirms_of_eval_resolver hown h
    exact ⟨hconfirms, by simp [hinstalled, hpackages], by simp [hinstalled]⟩

/-- A relative name in a written file stands for what is found at its path, and for nothing else. -/
theorem exists_found_of_relative (fs : FileSystem) {w : Workspace}
    (hredirect : w.redirects.get? name = none) (hrelative : Path.isRelative name)
    (hvirtual : w.isVirtual importer) :
    ∃ found, (Workspace.resolveName fs importer name w).1 = .ok found ∧
      found.map (·.file) =
        (w.view fs).eval (Lookup.fileOrFolder (Workspace.relativeTarget importer name)) ∧
      ∀ m, found = some m → (w.view fs).Confirms m ∧ m.installed = false := by
  rw [Workspace.resolveName_of_relative hredirect hrelative hvirtual, Workspace.runLookup_fst]
  cases hfile : (w.view fs).eval
      (Lookup.fileOrFolder (Workspace.relativeTarget importer name)) with
  | none => exact ⟨none, rfl, rfl, fun m hm ↦ absurd hm (Option.some_ne_none m).symm⟩
  | some file =>
    obtain ⟨hexists, kind, -, hmodule⟩ := FileView.exists_ofFile?_of_eval_fileOrFolder hfile
    obtain ⟨hconfirms, -, hinstalled, -⟩ := FileView.confirms_of_ofFile? hexists hmodule
    refine ⟨_, by rw [Option.bind_some, hmodule], rfl, ?_⟩
    rintro m ⟨⟩
    exact ⟨hconfirms, hinstalled⟩

/-- A resolved module has a file that exists and the kind of its name. It is marked as installed
exactly when it was found in an installed package, and not among the files of the project, and only
then it has an identity. A file that is found is never given up: resolution comes to nothing only
when no path stands for a file. A relative name in a written file stands for the file at its path.
For a workspace all this is said of the files that it shows. -/
theorem resolution_sound (config : ResolverConfig) (name importer : Text) :
    (∀ v : FileView,
      (∀ m, v.eval (config.resolver name importer) = some m → v.Confirms m ∧
        (m.installed = true ↔ v.firstFileAt (config.ownPaths name importer) = none ∧
          Installed.InPackages v name (Path.parent importer) m.file) ∧
        (m.installed = false ↔ v.firstFileAt (config.ownPaths name importer) = some m.file)) ∧
      (v.eval (config.resolver name importer) = none ↔
        v.firstFileAt (config.ownPaths name importer) = none ∧
          (Path.isRelative name ∨ Path.isAbsolute name ∨
            ∀ file, ¬ Installed.InPackages v name (Path.parent importer) file)) ∧
      ∀ path file, v.eval (Lookup.fileOrFolder path) = some file →
        ∃ kind, kind.IsKindOf file ∧ ofFile? file = some ⟨file, kind, false, none⟩) ∧
    ∀ (fs : FileSystem) (w : Workspace),
      (Workspace.runLookup fs (config.resolver name importer) w).1 =
        (w.view fs).eval (config.resolver name importer) ∧
      (w.redirects.get? name = none → Path.isRelative name → w.isVirtual importer → ∃ found,
        (Workspace.resolveName fs importer name w).1 = .ok found ∧
        found.map (·.file) =
          (w.view fs).eval (Lookup.fileOrFolder (Workspace.relativeTarget importer name)) ∧
        ∀ m, found = some m → (w.view fs).Confirms m ∧ m.installed = false) := by
  refine ⟨fun v ↦ ⟨fun m ↦ confirms_of_resolved, eval_resolver_eq_none_iff, ?_⟩, ?_⟩
  · intro path file hfile
    exact (FileView.exists_ofFile?_of_eval_fileOrFolder hfile).2
  · intro fs w
    exact ⟨Workspace.runLookup_fst fs _ w, exists_found_of_relative fs⟩

/-- A package with a manifest that is installed at the root. -/
def samplePackages : FileView where
  fileExists path := path = "/node_modules/lib/index.d.ts".toList
  folderExists path := path = "/node_modules".toList ∨ path = "/node_modules/lib".toList
  readText path :=
    if path = "/node_modules/lib/package.json".toList then
      some "\x7b\"name\":\"lib\",\"version\":\"1\"\x7d".toList
    else none

/-- A package that is found above the importing file, and a file that is written beside it. -/
theorem resolution_sound_samplePackages :
    (∃ m, samplePackages.eval ((ResolverConfig.mk none []).resolver "lib".toList
        "/p/a.ts".toList) = some m ∧ m.package.isSome ∧ m.installed = true ∧
      samplePackages.Confirms m ∧
      Installed.InPackages samplePackages "lib".toList "/p".toList m.file) ∧
    ∃ m, (Workspace.resolveName .empty "/p/a.ts".toList "./b".toList
        (Workspace.after [.write "/p/a.ts".toList [], .write "/p/b.ts".toList []]
          (Workspace.ofOptions .empty Table.empty))).1 = .ok (some m) ∧
      m.file = "/p/b.ts".toList ∧ m.installed = false := by
  have hpackage : samplePackages.eval ((ResolverConfig.mk none []).resolver "lib".toList
      "/p/a.ts".toList) = some ⟨"/node_modules/lib/index.d.ts".toList, .declaration, true,
        some ⟨"lib".toList, "index.d.ts".toList, "1".toList⟩⟩ := by decide +kernel
  obtain ⟨hconfirms, hinstalled, -⟩ := ((resolution_sound _ _ _).1 samplePackages).1 _ hpackage
  obtain ⟨found, hfound, hfile, hall⟩ := ((resolution_sound ⟨none, []⟩ "./b".toList
    "/p/a.ts".toList).2 .empty (Workspace.after [.write "/p/a.ts".toList [],
      .write "/p/b.ts".toList []] (Workspace.ofOptions .empty Table.empty))).2 (by decide)
      (by decide) (by decide)
  have hb : found.map (·.file) = some "/p/b.ts".toList := hfile.trans (by decide)
  obtain ⟨m, rfl, hm⟩ := Option.map_eq_some_iff.mp hb
  exact ⟨⟨_, hpackage, rfl, rfl, hconfirms, (hinstalled.mp rfl).2⟩, m, hfound, hm,
    (hall m rfl).2⟩

end FencedCode
