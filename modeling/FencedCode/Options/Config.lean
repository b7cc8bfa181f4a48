import FencedCode.Disk.FileSystem
import FencedCode.Error
import FencedCode.Json.Record
import FencedCode.Json.Relaxed
import FencedCode.Module.PackageName
import FencedCode.Options.Basic

/-!
# Configuration files

A configuration file holds compiler options and may extend another file. The chain of extended
files is followed to its end, at most 32 files long, and the options of a file override those of
the files it extends, key by key.
-/

namespace FencedCode

structure ConfigFile where
  parent : Option Text
  options : Json.Fields

namespace ConfigFile

/-- The configuration that a text holds. -/
def ofText? (text : Text) : Option ConfigFile := do
  let tree ← Json.Tree.ofText? (Json.relax text)
  match ← tree.slots? ["extends".toList, "compilerOptions".toList] with
  | [parent, options] => return ⟨← parent.optionalText?, ← options.fieldsOrEmpty?⟩
  | _ => none

def read (source : ConfigSource) (path : Text) : Except CompileError ConfigFile :=
  match source.readText path with
  | .error .missing => .error (.missingFile path)
  | .error .unreadable => .error (.io "unreadable".toList)
  | .ok text =>
    match ofText? text with
    | some config => .ok config
    | none => .error (.configuration path .malformed)

/-- A target with the extension of configuration files. -/
def withExtension (target : Text) : Text :=
  if ".json".toList.isSuffixOf target then target else target ++ ".json".toList

/-- The file in a package folder that a target names. -/
def packageFile (target : Text) : Text :=
  match PackageName.split target with
  | (_, none) => target ++ "/tsconfig.json".toList
  | (_, some _) => withExtension target

/-- The places where a target that names a package is looked for, nearest first. -/
def packageCandidates (folder target : Text) : List Text :=
  (NativePath.ancestors folder).map fun ancestor ↦
    NativePath.join (NativePath.join ancestor "node_modules".toList) (packageFile target)

/-- The file that `path` extends when it names `target`. -/
def parentPath (source : ConfigSource) (path target : Text) : Except CompileError Text :=
  let folder := NativePath.folder path
  if target.head? = some '.' ∨ NativePath.isAbsolute target then
    .ok (NativePath.join folder (withExtension target))
  else
    match (packageCandidates folder target).find? source.isFile with
    | some candidate => .ok candidate
    | none => .error (.configuration path (.packageNotFound target))

/-- The options of a file whose relative base folder is read from the folder of the file, so that
it keeps its meaning in files that extend this one. -/
def anchored (path : Text) (options : Json.Fields) : Json.Fields :=
  match options.get? CompilerOptions.baseUrlKey with
  | some (.string base) =>
    if NativePath.isAbsolute base then options
    else
      options.insert CompilerOptions.baseUrlKey
        (.string (NativePath.join (NativePath.folder path) base))
  | _ => options

/-- The longest chain of files. -/
def maxChain : Nat := 32

/-- The options of the files from `path` on, the file at `path` first, when `room` files may still
be read. -/
def chain (source : ConfigSource) (first : Text) :
    Nat → Text → Except CompileError (List Json.Fields)
  | 0, _ => .error (.configuration first .chainTooDeep)
  | room + 1, path => do
    let config ← read source path
    let own := anchored path config.options
    match config.parent with
    | none => return [own]
    | some target => do
      let next ← parentPath source path target
      return own :: (← chain source first room next)

end ConfigFile

namespace CompilerOptions

/-- The options of a configuration file. -/
def load (source : ConfigSource) (path : Text) : Except CompileError CompilerOptions := do
  let chain ← ConfigFile.chain source path ConfigFile.maxChain path
  return ⟨chain.foldr (fun own inherited ↦ Json.Fields.override inherited own) [],
    NativePath.parent? path⟩

end CompilerOptions

end FencedCode
