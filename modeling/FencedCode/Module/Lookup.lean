import FencedCode.Dialogue
import FencedCode.Json.Record
import FencedCode.Module.Basic
import FencedCode.Path.Normal

/-!
# Looking files up

Resolution is a dialogue that asks whether files and folders exist and reads package manifests. A
path is tried as a file, with the endings that a module name may leave out, and then as a folder,
by the types entry of its manifest and by its index file.
-/

namespace FencedCode

inductive FileRequest
  | fileExists (path : Text)
  | folderExists (path : Text)
  | read (path : Text)

abbrev FileRequest.Answer : FileRequest → Type
  | fileExists _ => Bool
  | folderExists _ => Bool
  | read _ => Option Text

/-- A computation that asks about files. -/
abbrev Lookup (α : Type) : Type := Dialogue FileRequest.Answer α

/-- A way to resolve the module names that a file imports. -/
abbrev Resolver := (name importer : Text) → Lookup (Option ResolvedModule)

namespace Lookup

def fileExists (path : Text) : Lookup Bool := Dialogue.ask (.fileExists path) .done

def folderExists (path : Text) : Lookup Bool := Dialogue.ask (.folderExists path) .done

def read (path : Text) : Lookup (Option Text) := Dialogue.ask (.read path) .done

/-- The first of the candidates that exists. -/
def firstFile : List Text → Lookup (Option Text)
  | [] => return none
  | candidate :: rest => do
    if ← fileExists candidate then return some candidate else firstFile rest

/-- A path without the ending of emitted files. Sources name the files that are emitted from their
neighbours. -/
def stem (path : Text) : Text :=
  match Text.stripEnd? FileKind.js.ending path with
  | some s => s
  | none => (Text.stripEnd? FileKind.jsx.ending path).getD path

/-- The files that a path may stand for. -/
def fileCandidates (path : Text) : List Text :=
  (if (FileKind.ofName? path).isSome then [path] else []) ++
    FileKind.sources.map fun kind ↦ stem path ++ kind.ending

/-- The index files of a folder. -/
def indexCandidates (folder : Text) : List Text :=
  FileKind.sources.map fun kind ↦ folder ++ "/index".toList ++ kind.ending

/-- What resolution reads of a package manifest. -/
structure Manifest where
  name : Option Text
  version : Option Text
  types : Option Text
  typings : Option Text

namespace Manifest

def empty : Manifest := ⟨none, none, none, none⟩

def ofText? (text : Text) : Option Manifest := do
  let tree ← Json.Tree.ofText? text
  match ← tree.slots? ["name".toList, "version".toList, "types".toList, "typings".toList] with
  | [name, version, types, typings] =>
    return ⟨← name.optionalText?, ← version.optionalText?, ← types.optionalText?,
      ← typings.optionalText?⟩
  | _ => none

/-- The declarations that a package names as its entry. -/
def entry (m : Manifest) : Option Text := m.types <|> m.typings

end Manifest

/-- The manifest of a folder. A manifest that cannot be read counts as none. -/
def manifest (folder : Text) : Lookup (Option Manifest) := do
  return (← read (folder ++ "/package.json".toList)).bind Manifest.ofText?

def file (path : Text) : Lookup (Option Text) := firstFile (fileCandidates path)

/-- The candidates of a folder whose manifest has been read. -/
def folderCandidates (folder : Text) (m : Option Manifest) : List Text :=
  match m.bind Manifest.entry with
  | some entry =>
    let target := Path.join folder entry
    fileCandidates target ++ indexCandidates target ++ indexCandidates folder
  | none => indexCandidates folder

def folder (path : Text) : Lookup (Option Text) := do
  if ← folderExists path then firstFile (folderCandidates path (← manifest path))
  else return none

/-- The file that a path stands for, as a file or as a folder. -/
def fileOrFolder (path : Text) : Lookup (Option Text) := do
  match ← file path with
  | some found => return some found
  | none => folder path

end Lookup

end FencedCode
