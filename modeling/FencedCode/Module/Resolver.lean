import FencedCode.Module.Installed
import FencedCode.Module.Mapping

/-!
# Resolution by the compiler options

A relative or absolute module name is looked up from the folder of the importing file. Any other
name goes through the mappings, then through the base folder, and then through the installed
packages.
-/

namespace FencedCode

/-- What resolution takes from the options. -/
structure ResolverConfig where
  baseUrl : Option Text
  mappings : List Mapping
deriving DecidableEq

namespace ResolverConfig

/-- The folder that substitutions are read from: the base folder, or that of the loaded file. -/
def mappingFolder (options : CompilerOptions) : Option Text :=
  (options.baseUrl <|> options.configFolder).map Path.normalize

def ofOptions (options : CompilerOptions) : ResolverConfig where
  baseUrl := options.baseUrl.map Path.normalize
  mappings :=
    match mappingFolder options with
    | some folder =>
      options.paths.map fun (pattern, targets) ↦ ⟨pattern, targets.map (Path.join folder)⟩
    | none => []

/-- The file that a bare name stands for by the mappings or below the base folder. -/
def mapped (config : ResolverConfig) (name : Text) : Lookup (Option Text) := do
  match ← Mapping.resolve name config.mappings with
  | some found => return some found
  | none =>
    match config.baseUrl with
    | some base => Lookup.fileOrFolder (Path.join base name)
    | none => return none

def resolver (config : ResolverConfig) : Resolver := fun name importer ↦ do
  let folder := Path.parent importer
  if Path.isRelative name || Path.isAbsolute name then
    return (← Lookup.fileOrFolder (Path.join folder name)).bind ResolvedModule.ofFile?
  else
    match (← config.mapped name).bind ResolvedModule.ofFile? with
    | some found => return some found
    | none => Installed.resolve name folder

end ResolverConfig

namespace Resolver

/-- Resolution by the compiler options. -/
def ofOptions (options : CompilerOptions) : Resolver := (ResolverConfig.ofOptions options).resolver

/-- Resolution by a list of names. -/
def ofTable (rows : List (Text × Option ResolvedModule)) : Resolver := fun name _ ↦
  return (rows.lookup name).join

end Resolver

end FencedCode
