import FencedCode.Options.Config
import FencedCode.Module.Basic
import FencedCode.Source.Variant

/-!
# Settings

Settings describe one configuration of the compiler: where its options come from, the redirects,
where the files of a document live, and how the shown variants are made. Settings that were made
apart have different identities, also when they say the same.
-/

namespace FencedCode

structure SettingsId where
  number : Nat
deriving DecidableEq

structure Settings where
  id : SettingsId
  configPath : Option Text
  /-- Options that take the place of a configuration file. -/
  options : Option CompilerOptions
  redirects : Redirects
  /-- The folder for a document, when it is not the document's own path. -/
  relocate : Option (Text → Text)
  presentTyped : Option Presentation
  presentCompiled : Option Presentation

namespace Settings

/-- The folder that holds the blocks of a document. -/
def root (settings : Settings) (document : Text) : Text :=
  match settings.relocate with
  | some relocate => relocate document
  | none => document

/-- The variant of files as they were written. -/
def typedVariant (settings : Settings) (files : FileSet) (document : Text) : FileSet :=
  match settings.presentTyped with
  | some present => present files document
  | none => files.typedVariant

/-- The variant of emitted files. -/
def compiledVariant (settings : Settings) (files : FileSet) (document : Text) : FileSet :=
  match settings.presentCompiled with
  | some present => present files document
  | none => files.compiledVariant

/-- The options of the settings. -/
def loadOptions (settings : Settings) (source : ConfigSource) :
    Except CompileError CompilerOptions :=
  match settings.options, settings.configPath with
  | some options, _ => .ok options
  | none, some path => CompilerOptions.load source path
  | none, none => .ok .empty

end Settings

end FencedCode
