import FencedCode.Json.Basic
import FencedCode.Path.Native

/-!
# Compiler options

Options are the fields of a JSON object. A few of them matter to the library: strictness, the base
folder of bare module names, and the patterns that map module names to files.
-/

namespace FencedCode

structure CompilerOptions where
  values : Json.Fields
  /-- The folder of the configuration file that was loaded. -/
  configFolder : Option Text

namespace CompilerOptions

def strictKey : Text := "strict".toList

def baseUrlKey : Text := "baseUrl".toList

def pathsKey : Text := "paths".toList

def empty : CompilerOptions := ⟨[], none⟩

/-- Options that come from no file. -/
def ofFields (values : Json.Fields) : CompilerOptions := ⟨values, none⟩

def get? (options : CompilerOptions) (key : Text) : Option Json := options.values.get? key

def strict (options : CompilerOptions) : Bool :=
  ((options.get? strictKey).bind Json.bool?).getD false

/-- The base folder of bare module names, read from the folder of the loaded file. -/
def baseUrl (options : CompilerOptions) : Option Text :=
  ((options.get? baseUrlKey).bind Json.text?).map fun base ↦
    match options.configFolder with
    | some folder => NativePath.join folder base
    | none => base

/-- The patterns for module names with their substitutions, in the order of the patterns. Entries
that are no texts are passed over. -/
def paths (options : CompilerOptions) : List (Text × List Text) :=
  match options.get? pathsKey with
  | some (.object fields) =>
    fields.map fun (pattern, targets) ↦ (pattern, (targets.items?.getD []).filterMap Json.text?)
  | _ => []

end CompilerOptions

end FencedCode
