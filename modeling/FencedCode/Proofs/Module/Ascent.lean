import FencedCode.Proofs.Module.PackageName
import FencedCode.Proofs.Path.Parent
import FencedCode.Proofs.Workspace.Relative
import Mathlib.Data.List.Chain
import Mathlib.Data.List.Nodup

/-!
# The search for installed packages

A bare name that stands for no file of the project is looked for in the packages that are installed
in the folder of the importing file and in the folders above it. The first place that has a file
decides, and the nearest folder comes first. For an absolute file the search leads up to the root.
For a relative file it leads up to the outermost folder that the name spells out, and the current
folder, in which that one lies, is left out.
-/

namespace FencedCode

open FencedCode.Path (dot isAbsolute normalize parent slash)

/-! ## The folders of the search -/

namespace Installed

/-- The search goes on above the folder. -/
def HasAbove (current : Text) : Prop := '/' ∈ current ∧ current ≠ slash

theorem hasAbove_iff {current : Text} :
    current ≠ slash ∧ current ≠ dot ∧ '/' ∈ current ↔ HasAbove current := by
  constructor
  · rintro ⟨hslash, -, hmem⟩
    exact ⟨hmem, hslash⟩
  · rintro ⟨hmem, hslash⟩
    refine ⟨hslash, ?_, hmem⟩
    rintro rfl
    exact absurd hmem (by decide)

theorem searchFolders_of_hasAbove {current : Text} (h : HasAbove current) :
    searchFolders current = current :: searchFolders (parent current) := by
  rw [searchFolders_eq, if_pos (hasAbove_iff.mpr h)]

theorem searchFolders_of_not_hasAbove {current : Text} (h : ¬ HasAbove current) :
    searchFolders current = [current] := by
  rw [searchFolders_eq, if_neg (mt hasAbove_iff.mp h)]

/-- What holds where a search ends, and is carried down from each folder to the one below, holds of
every folder. Names get shorter on the way up, so every search ends. -/
@[elab_as_elim]
theorem upward_induction {motive : Text → Prop}
    (top : ∀ current, ¬ HasAbove current → motive current)
    (below : ∀ current, HasAbove current → motive (parent current) → motive current)
    (current : Text) : motive current := by
  induction hlength : current.length using Nat.strong_induction_on generalizing current with
  | h length ih =>
    by_cases habove : HasAbove current
    · have hshorter := Path.length_parent_lt habove.1 habove.2
      exact below current habove (ih _ (hlength ▸ hshorter) _ rfl)
    · exact top current habove

theorem length_le_of_mem_searchFolders {current folder : Text}
    (h : folder ∈ searchFolders current) : folder.length ≤ current.length := by
  induction current using upward_induction with
  | top current habove =>
    rw [searchFolders_of_not_hasAbove habove] at h
    exact List.mem_singleton.mp h ▸ Nat.le_refl _
  | below current habove ih =>
    rw [searchFolders_of_hasAbove habove] at h
    rcases List.mem_cons.mp h with rfl | hmem
    · exact Nat.le_refl _
    · exact (ih hmem).trans (Nat.le_of_lt (Path.length_parent_lt habove.1 habove.2))

/-- The folders lead from the first one up to the last, each to the folder that it lies in, and no
folder comes twice. -/
structure LeadsUp (first last : Text) (folders : List Text) : Prop where
  head : folders.head? = some first
  getLast : folders.getLast? = some last
  steps : folders.IsChain fun lower upper ↦ upper = parent lower
  nodup : folders.Nodup

/-- The search leads up from a folder as long as there is a folder above. -/
theorem exists_leadsUp (current : Text) :
    ∃ last, LeadsUp current last (searchFolders current) ∧ ¬ HasAbove last := by
  induction current using upward_induction with
  | top current habove =>
    rw [searchFolders_of_not_hasAbove habove]
    exact ⟨current, ⟨rfl, rfl, .singleton current, List.nodup_singleton current⟩, habove⟩
  | below current habove ih =>
    obtain ⟨last, hleads, hlast⟩ := ih
    have hnotMem : current ∉ searchFolders (parent current) := fun hmem ↦
      Nat.not_lt.mpr (length_le_of_mem_searchFolders hmem)
        (Path.length_parent_lt habove.1 habove.2)
    rw [searchFolders_of_hasAbove habove]
    refine ⟨last, ⟨rfl, ?_, ?_, List.nodup_cons.mpr ⟨hnotMem, hleads.nodup⟩⟩, hlast⟩
    · rw [List.getLast?_cons, hleads.getLast, Option.getD_some]
    · refine List.isChain_cons.mpr ⟨fun upper hupper ↦ ?_, hleads.steps⟩
      rw [hleads.head] at hupper
      exact (Option.some.inj hupper).symm

theorem isAbsolute_of_mem_searchFolders {current folder : Text} (h : isAbsolute current)
    (hmem : folder ∈ searchFolders current) : isAbsolute folder := by
  induction current using upward_induction with
  | top current habove =>
    rw [searchFolders_of_not_hasAbove habove] at hmem
    exact List.mem_singleton.mp hmem ▸ h
  | below current habove ih =>
    rw [searchFolders_of_hasAbove habove] at hmem
    rcases List.mem_cons.mp hmem with rfl | hmem
    · exact h
    · exact ih (Path.isAbsolute_parent h) hmem

/-- From an absolute folder the search leads up to the root. -/
theorem leadsUp_searchFolders {current : Text} (h : isAbsolute current) :
    LeadsUp current slash (searchFolders current) := by
  obtain ⟨last, hleads, hlast⟩ := exists_leadsUp current
  have habsolute := isAbsolute_of_mem_searchFolders h (List.mem_of_getLast? hleads.getLast)
  have hroot : last = slash := by
    by_contra hne
    exact hlast ⟨Path.slash_mem_of_isAbsolute habsolute, hne⟩
  exact hroot ▸ hleads

/-! ### Relative folders -/

/-- The folders that segments spell out: all of the segments, then one less and so on, down to the
first segment alone. -/
def spelledFolders (segments : List Text) : List Text :=
  (segments.inits.tail.map slash.intercalate).reverse

theorem spelledFolders_append_singleton (front : List Text) (last : Text) :
    spelledFolders (front ++ [last]) =
      slash.intercalate (front ++ [last]) :: spelledFolders front := by
  have hinits : (front ++ [last]).inits.tail = front.inits.tail ++ [front ++ [last]] := by
    rw [List.inits_append, List.tail_append_of_ne_nil (by cases front <;> simp)]
    rfl
  rw [spelledFolders, hinits, List.map_append, List.reverse_append]
  rfl

theorem parent_joined {front : List Text} {last : Text} (hfront : ∀ s ∈ front, Path.IsProper s)
    (hne : front ≠ []) (hlast : '/' ∉ last) :
    parent (slash.intercalate (front ++ [last])) = slash.intercalate front := by
  rw [Path.joined_append_singleton hne, Path.parent_append_slash hlast,
    if_neg (Path.joined_ne_nil hfront hne)]

theorem hasAbove_joined {front : List Text} (hfront : ∀ s ∈ front, Path.IsProper s)
    (hne : front ≠ []) (last : Text) : HasAbove (slash.intercalate (front ++ [last])) := by
  rw [Path.joined_append_singleton hne]
  refine ⟨List.mem_append_right _ List.mem_cons_self, fun hslash ↦ ?_⟩
  rcases List.append_eq_singleton_iff.mp hslash with ⟨hnil, -⟩ | ⟨-, hnil⟩
  · exact Path.joined_ne_nil hfront hne hnil
  · exact absurd hnil (List.cons_ne_nil _ _)

/-- From a relative folder the search leads up along the segments that are spelled out. -/
theorem searchFolders_joined {segments : List Text} (h : ∀ s ∈ segments, Path.IsProper s)
    (hne : segments ≠ []) :
    searchFolders (slash.intercalate segments) = spelledFolders segments := by
  induction segments using List.reverseRecOn with
  | nil => exact absurd rfl hne
  | append_singleton front last ih =>
    have hlast : '/' ∉ last := (h last (List.mem_append_right _ List.mem_cons_self)).slash_notMem
    have hfront : ∀ s ∈ front, Path.IsProper s := fun s hs ↦ h s (List.mem_append_left _ hs)
    rw [spelledFolders_append_singleton]
    by_cases hempty : front = []
    · -- The first segment has no separator, and there the search ends.
      subst hempty
      rw [List.nil_append, List.intercalate_singleton,
        searchFolders_of_not_hasAbove fun habove ↦ hlast habove.1]
      rfl
    · rw [searchFolders_of_hasAbove (hasAbove_joined hfront hempty last),
        parent_joined hfront hempty hlast, ih hfront hempty]

theorem dot_notMem_spelledFolders {segments : List Text} (h : ∀ s ∈ segments, Path.IsProper s) :
    dot ∉ spelledFolders segments := by
  intro hmem
  obtain ⟨front, hfront, hjoined⟩ := List.mem_map.mp (List.mem_reverse.mp hmem)
  have hinit : front <+: segments :=
    (List.mem_inits front segments).mp (List.mem_of_mem_tail hfront)
  have hproper : ∀ s ∈ front, Path.IsProper s := fun s hs ↦ h s (hinit.subset hs)
  have hne : front ≠ [] := by
    cases segments with
    | nil => exact absurd hfront List.not_mem_nil
    | cons first rest =>
      obtain ⟨others, -, rfl⟩ := List.mem_map.mp hfront
      exact List.cons_ne_nil first others
  have hsplit : dot.splitOn '/' = front := by rw [← hjoined, Path.splitOn_joined hproper hne]
  have hdot : dot ∈ front := hsplit ▸ List.mem_singleton_self dot
  exact (hproper dot hdot).ne_dot rfl

end Installed

/-! ## The places of a package -/

open Installed (LeadsUp packagesFolder searchFolders spelledFolders targetIn)

namespace FileView

variable (v : FileView)

/-- The places of a package, and of the package of its declarations, in those of the folders that
have installed packages. -/
def packagePlaces (package types : Text) (folders : List Text) : List Text :=
  folders.flatMap fun folder ↦
    if v.folderExists (packagesFolder folder) then
      [packagesFolder folder ++ '/' :: package, packagesFolder folder ++ '/' :: types]
    else []

/-- The module is what the first place that has a file has. Its file is the first that exists among
those that the place may mean, or that the path inside the place may mean. -/
def FindsFirst (inner : Option Text) (places : List Text) (m : ResolvedModule) : Prop :=
  ∃ earlier root later file, places = earlier ++ root :: later ∧
    (∀ place ∈ earlier, (v.places (targetIn inner place)).find? v.fileExists = none) ∧
    (v.places (targetIn inner root)).find? v.fileExists = some file ∧
    m = Installed.ofFile root ((v.manifest root).getD .empty) file

theorem packageAt_eq (inner : Option Text) (root : Text) : v.packageAt inner root =
    ((v.places (targetIn inner root)).find? v.fileExists).map
      (Installed.ofFile root ((v.manifest root).getD .empty)) := by
  rw [packageAt, eval_fileOrFolder, candidates_eq_places]

theorem packageAt_eq_none_iff {inner : Option Text} {root : Text} :
    v.packageAt inner root = none ↔
      (v.places (targetIn inner root)).find? v.fileExists = none := by
  rw [packageAt_eq, Option.map_eq_none_iff]

theorem findSome?_packageAt_eq_some_iff {inner : Option Text} {places : List Text}
    {m : ResolvedModule} :
    places.findSome? (v.packageAt inner) = some m ↔ v.FindsFirst inner places m := by
  rw [List.findSome?_eq_some_iff]
  constructor
  · rintro ⟨earlier, root, later, hplaces, hroot, hearlier⟩
    rw [packageAt_eq] at hroot
    obtain ⟨file, hfile, rfl⟩ := Option.map_eq_some_iff.mp hroot
    exact ⟨earlier, root, later, file, hplaces,
      fun place hplace ↦ v.packageAt_eq_none_iff.mp (hearlier place hplace), hfile, rfl⟩
  · rintro ⟨earlier, root, later, file, hplaces, hearlier, hfile, rfl⟩
    refine ⟨earlier, root, later, hplaces, ?_,
      fun place hplace ↦ v.packageAt_eq_none_iff.mpr (hearlier place hplace)⟩
    rw [packageAt_eq, hfile, Option.map_some]

theorem findSome?_packageIn (package : Text) (inner : Option Text) (folders : List Text) :
    folders.findSome? (v.packageIn package inner) =
      (v.packagePlaces package (PackageName.declarations package) folders).findSome?
        (v.packageAt inner) := by
  induction folders with
  | nil => rfl
  | cons folder rest ih =>
    rw [packagePlaces, List.flatMap_cons, List.findSome?_append, ← packagePlaces, ← ih,
      List.findSome?_cons, packageIn]
    by_cases hfolder : v.folderExists (packagesFolder folder)
    · rw [if_pos hfolder, if_pos hfolder]
      show _ = ((Installed.roots package folder).findSome? (v.packageAt inner)).or _
      cases (Installed.roots package folder).findSome? (v.packageAt inner) with
      | some found => rfl
      | none => rfl
    · rw [if_neg hfolder, if_neg hfolder]
      rfl

end FileView

/-- A bare name that stands for no file of the project is looked for in the folders: it stands for
what the first place of its package has, and for nothing when no place has a file. -/
def ResolverConfig.SearchesPackages (config : ResolverConfig) (name importer : Text)
    (folders : List Text) : Prop :=
  ∃ package inner types, PackageName.Begins name package inner ∧
    PackageName.Declares package types ∧ ∀ v : FileView, v.eval (config.mapped name) = none →
      (∀ m, v.eval (config.resolver name importer) = some m ↔
        v.FindsFirst inner (v.packagePlaces package types folders) m) ∧
      (v.eval (config.resolver name importer) = none ↔
        ∀ place ∈ v.packagePlaces package types folders,
          (v.places (targetIn inner place)).find? v.fileExists = none)

variable {name importer : Text}

theorem eval_resolver_of_bare {config : ResolverConfig} {v : FileView}
    (hname : ¬ (Path.isRelative name ∨ isAbsolute name))
    (hmapped : v.eval (config.mapped name) = none) :
    v.eval (config.resolver name importer) = v.eval (Installed.resolve name (parent importer)) := by
  have hpath : ¬ (Path.isRelative name || isAbsolute name) = true := by
    rwa [Bool.or_eq_true]
  have hown : v.firstFileAt (config.ownPaths name importer) = none := by
    rw [ResolverConfig.ownPaths, if_neg hpath, ← FileView.eval_mapped, hmapped]
  rw [eval_resolver, hown]
  exact if_neg hpath

theorem searchesPackages_searchFolders (config : ResolverConfig)
    (hname : ¬ (Path.isRelative name ∨ isAbsolute name)) :
    config.SearchesPackages name importer (searchFolders (normalize (parent importer))) := by
  refine ⟨_, _, _, PackageName.begins_split name, PackageName.declares_declarations _,
    fun v hmapped ↦ ?_⟩
  rw [eval_resolver_of_bare hname hmapped, FileView.eval_installed, FileView.findSome?_packageIn,
    List.findSome?_eq_none_iff]
  refine ⟨fun m ↦ v.findSome?_packageAt_eq_some_iff, ?_⟩
  simp only [FileView.packageAt_eq_none_iff]

/-- For an absolute file the search leads from the folder of the file up to the root. Every folder
on the way is looked at once, and a package that is installed there but does not have the file does
not end the search. -/
theorem searchesPackages_of_absolute (config : ResolverConfig) (himporter : isAbsolute importer)
    (hname : ¬ (Path.isRelative name ∨ isAbsolute name)) :
    ∃ folders, LeadsUp (normalize (parent importer)) slash folders ∧
      config.SearchesPackages name importer folders := by
  have habsolute : isAbsolute (normalize (parent importer)) :=
    Path.isAbsolute_normalize (Path.isAbsolute_parent himporter)
  exact ⟨_, Installed.leadsUp_searchFolders habsolute, searchesPackages_searchFolders config hname⟩

/-- Near the importing file a package that lacks the file, and at the root its declarations. -/
def scatteredPackages : FileView where
  fileExists path := path = "/node_modules/@types/s__lib/util.d.ts".toList
  folderExists path :=
    path ∈ ["/p/src/node_modules".toList, "/p/src/node_modules/@s/lib".toList,
      "/node_modules".toList]
  readText _ := none

theorem searchesPackages_scatteredPackages :
    isAbsolute "/p/src/a.ts".toList ∧
      ¬ (Path.isRelative "@s/lib/util".toList ∨ isAbsolute "@s/lib/util".toList) ∧
      ∃ folders, LeadsUp "/p/src".toList slash folders ∧
        (ResolverConfig.mk none []).SearchesPackages "@s/lib/util".toList "/p/src/a.ts".toList
          folders ∧
        ∃ m, scatteredPackages.eval ((ResolverConfig.mk none []).resolver "@s/lib/util".toList
            "/p/src/a.ts".toList) = some m ∧
          m.file = "/node_modules/@types/s__lib/util.d.ts".toList := by
  have himporter : isAbsolute "/p/src/a.ts".toList := by decide
  have hname : ¬ (Path.isRelative "@s/lib/util".toList ∨ isAbsolute "@s/lib/util".toList) := by
    decide
  have hfolder : normalize (parent "/p/src/a.ts".toList) = "/p/src".toList := by decide
  obtain ⟨folders, hleads, hsearches⟩ :=
    searchesPackages_of_absolute (ResolverConfig.mk none []) himporter hname
  refine ⟨himporter, hname, folders, hfolder ▸ hleads, hsearches,
    ⟨"/node_modules/@types/s__lib/util.d.ts".toList, .declaration, true, none⟩, ?_, rfl⟩
  decide +kernel

/-- For a relative file the search leads from the folder of the file up to the outermost folder that
is spelled out. It does not come to the current folder, where that folder lies: the packages that
are installed in the current folder are looked at only for the files that lie in it directly. -/
theorem searchesPackages_of_relative (config : ResolverConfig) {segments : List Text}
    (hfolder : normalize (parent importer) = slash.intercalate segments) (hne : segments ≠ [])
    (hsegments : ∀ s ∈ segments, Path.IsProper s)
    (hname : ¬ (Path.isRelative name ∨ isAbsolute name)) :
    config.SearchesPackages name importer (spelledFolders segments) ∧
      dot ∉ spelledFolders segments ∧
      ∀ other, normalize (parent other) = dot → config.SearchesPackages name other [dot] := by
  refine ⟨?_, Installed.dot_notMem_spelledFolders hsegments, fun other hother ↦ ?_⟩
  · rw [← Installed.searchFolders_joined hsegments hne, ← hfolder]
    exact searchesPackages_searchFolders config hname
  · have hdot : searchFolders dot = [dot] := by decide
    rw [← hdot, ← hother]
    exact searchesPackages_searchFolders config hname

theorem searchesPackages_of_nestedImporter :
    normalize (parent "docs/guide/a.ts".toList) =
        slash.intercalate ["docs".toList, "guide".toList] ∧
      (∀ s ∈ ["docs".toList, "guide".toList], Path.IsProper s) ∧
      ¬ (Path.isRelative "lib".toList ∨ isAbsolute "lib".toList) ∧
      (ResolverConfig.mk none []).SearchesPackages "lib".toList "docs/guide/a.ts".toList
        ["docs/guide".toList, "docs".toList] ∧
      (ResolverConfig.mk none []).SearchesPackages "lib".toList "a.ts".toList [dot] := by
  have hfolder : normalize (parent "docs/guide/a.ts".toList) =
      slash.intercalate ["docs".toList, "guide".toList] := by decide
  have hplain : ∀ s ∈ ["docs".toList, "guide".toList], Path.IsPlain s := by decide
  have hname : ¬ (Path.isRelative "lib".toList ∨ isAbsolute "lib".toList) := by decide
  obtain ⟨hnested, -, hcurrent⟩ := searchesPackages_of_relative (ResolverConfig.mk none [])
    hfolder (by decide) (fun s hs ↦ (hplain s hs).toIsProper) hname
  exact ⟨hfolder, fun s hs ↦ (hplain s hs).toIsProper, hname, hnested, hcurrent _ (by decide)⟩

/-- A package that is installed in the current folder. -/
def currentPackages : FileView where
  fileExists path := normalize path = "node_modules/lib/index.d.ts".toList
  folderExists path :=
    normalize path ∈ ["node_modules".toList, "node_modules/lib".toList]
  readText _ := none

/-- The package of the current folder is found for a file that lies in it, and not for one that lies
deeper. -/
theorem not_found_in_current :
    currentPackages.eval ((ResolverConfig.mk none []).mapped "lib".toList) = none ∧
      normalize (parent "docs/a.ts".toList) = "docs".toList ∧
      currentPackages.folderExists "docs/node_modules".toList = false ∧
      currentPackages.eval (Lookup.fileOrFolder "./node_modules/lib".toList) =
        some "./node_modules/lib/index.d.ts".toList ∧
      (currentPackages.eval ((ResolverConfig.mk none []).resolver "lib".toList
        "a.ts".toList)).map (·.file) = some "./node_modules/lib/index.d.ts".toList ∧
      currentPackages.eval ((ResolverConfig.mk none []).resolver "lib".toList
        "docs/a.ts".toList) = none := by
  decide +kernel

end FencedCode
