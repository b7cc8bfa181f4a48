import FencedCode.Source.File
import FencedCode.Source.Suppression

/-!
# The shown variants

A block is shown as it was written and as it was compiled. Both variants are trimmed; the compiled
one loses its suppression comments and has the names of emitted files.
-/

namespace FencedCode

/-- The name under which a source file is emitted. -/
def emittedName (path : Text) : Text :=
  match Text.stripEnd? ".tsx".toList path with
  | some stem => stem ++ ".jsx".toList
  | none =>
    match Text.stripEnd? ".ts".toList path with
    | some stem => stem ++ ".js".toList
    | none => path

namespace FileSet

/-- The variant as it was written. -/
def typedVariant (files : FileSet) : FileSet :=
  files.map fun _ file ↦ { file with code := Text.trim file.code }

/-- The compiled variant, by emitted names. -/
def compiledVariant (files : FileSet) : FileSet :=
  Table.ofList (files.values.map fun file ↦
    let path := emittedName file.path
    (path, ⟨path, Text.trim (stripSuppressions file.code), file.hidden⟩))

end FileSet

/-- A way to make a shown variant out of files and the document they come from. -/
abbrev Presentation := FileSet → Text → FileSet

namespace Presentation

/-- All files as they are. -/
def verbatim : Presentation := fun files _ ↦ files

/-- Without the files whose keys end in `ending`. -/
def omitting (ending : Text) : Presentation := fun files _ ↦
  Table.ofList (files.entries.filter fun (key, _) ↦ !ending.isSuffixOf key)

/-- With a comment line that names the document on top of each file. -/
def titled : Presentation := fun files document ↦
  files.map fun _ file ↦ { file with code := "// ".toList ++ document ++ '\n' :: file.code }

end Presentation

end FencedCode
