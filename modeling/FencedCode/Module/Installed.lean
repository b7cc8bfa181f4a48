import FencedCode.Module.Lookup
import FencedCode.Module.PackageName

/-!
# Installed packages

Packages are installed in folders of one fixed name, in the folder of the importing file or in a
folder above it. The nearest folder that has the package wins, and in each folder the package
itself comes before the package of its declarations.
-/

namespace FencedCode.Installed

/-- The folders from `current` upwards, at most as many as `room` lets above it. -/
def upward : Nat → Text → List Text
  | 0, current => [current]
  | room + 1, current =>
    if current ≠ Path.slash ∧ current ≠ Path.dot ∧ '/' ∈ current then
      current :: upward room (Path.parent current)
    else [current]

/-- The folders in which packages are looked for, from `current` upwards. Each is shorter than the
one before, so the length of the first bounds their number. -/
def searchFolders (current : Text) : List Text := upward current.length current

theorem upward_of_length_le {room room' : Nat} {current : Text} (h : current.length ≤ room)
    (h' : current.length ≤ room') : upward room current = upward room' current := by
  induction room generalizing room' current with
  | zero =>
    have : current = [] := List.length_eq_zero_iff.mp (Nat.le_zero.mp h)
    subst this
    cases room' <;> simp [upward]
  | succ room ih =>
    cases room' with
    | zero =>
      have : current = [] := List.length_eq_zero_iff.mp (Nat.le_zero.mp h')
      subst this
      simp [upward]
    | succ room' =>
      unfold upward
      split
      · rename_i hc
        have hlt := Path.length_parent_lt hc.2.2 hc.1
        exact congrArg _ (ih (by omega) (by omega))
      · rfl

theorem searchFolders_eq (current : Text) :
    searchFolders current =
      if current ≠ Path.slash ∧ current ≠ Path.dot ∧ '/' ∈ current then
        current :: searchFolders (Path.parent current)
      else [current] := by
  unfold searchFolders
  rw [upward_of_length_le (Nat.le_refl _) (Nat.le_succ _), upward]
  split
  · rename_i hc
    have hlt := Path.length_parent_lt hc.2.2 hc.1
    rw [upward_of_length_le (by omega) (Nat.le_refl _)]
  · rfl

/-- The folder of the packages that are installed in a folder. -/
def packagesFolder (folder : Text) : Text :=
  if folder = Path.slash then "/node_modules".toList else folder ++ "/node_modules".toList

/-- The file inside a package folder, or nothing when the file lies elsewhere. -/
def innerPath (root file : Text) : Text :=
  match Text.stripStart? root file with
  | some rest => rest.dropWhile (· = '/')
  | none => []

/-- A file found in the package at `root`. -/
def ofFile (root : Text) (m : Lookup.Manifest) (file : Text) : ResolvedModule where
  file := file
  kind := (FileKind.ofName? file).getD .declaration
  installed := true
  package :=
    match m.name, m.version with
    | some name, some version => some ⟨name, innerPath root file, version⟩
    | _, _ => none

/-- The first of the packages at the given places that has the file `inner`. -/
def firstPackage (inner : Option Text) : List Text → Lookup (Option ResolvedModule)
  | [] => return none
  | root :: rest => do
    let target :=
      match inner with
      | some path => root ++ '/' :: path
      | none => root
    match ← Lookup.fileOrFolder target with
    | some file => return some (ofFile root ((← Lookup.manifest root).getD .empty) file)
    | none => firstPackage inner rest

/-- The first of the folders that has the package. -/
def firstFolder (package : Text) (inner : Option Text) :
    List Text → Lookup (Option ResolvedModule)
  | [] => return none
  | folder :: rest => do
    let packages := packagesFolder folder
    if ← Lookup.folderExists packages then
      let roots := [package, PackageName.declarations package].map fun name ↦
        packages ++ '/' :: name
      match ← firstPackage inner roots with
      | some found => return some found
      | none => firstFolder package inner rest
    else firstFolder package inner rest

/-- A bare module name among the packages installed for a folder. -/
def resolve (name folder : Text) : Lookup (Option ResolvedModule) :=
  let (package, inner) := PackageName.split name
  firstFolder package inner (searchFolders (Path.normalize folder))

end FencedCode.Installed
