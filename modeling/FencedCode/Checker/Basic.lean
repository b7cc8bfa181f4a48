import FencedCode.Diagnostic.Basic
import FencedCode.Workspace.Resolve

/-!
# Checkers

A checker emits and checks source files. It keeps a state of its own between calls, and all it
learns of the files it learns by asking the workspace. A redirect that leads nowhere ends the call;
what was learned until then stays.
-/

namespace FencedCode

/-- What a checker may ask. -/
inductive Inquiry
  | options
  /-- The files of the current request. -/
  | scripts
  /-- A token that stays the same as long as the file does. -/
  | version (path : Text)
  | file (request : FileRequest)
  | resolve (importer : Text) (names : List Text)

abbrev Inquiry.Answer : Inquiry → Type
  | options => CompilerOptions
  | scripts => List Text
  | version _ => Text
  | file request => request.Answer
  | resolve _ _ => Except MissingRedirect (List (Option ResolvedModule))

/-- A computation that asks a workspace. -/
abbrev Consultation (α : Type) : Type := Dialogue Inquiry.Answer α

/-- A call of a checker with the state `σ`. -/
abbrev CheckM (σ α : Type) : Type := ExceptT MissingRedirect (StateT σ (Dialogue Inquiry.Answer)) α

structure EmittedFile where
  name : Text
  text : Text
deriving DecidableEq

/-- A way to emit and check files. Of the emitted files the first is the code itself. -/
structure Checker (σ : Type) where
  emit : Text → CheckM σ (List EmittedFile)
  /-- Diagnostics of the options themselves. -/
  optionDiagnostics : CheckM σ (List RawDiagnostic)
  syntaxDiagnostics : Text → CheckM σ (List RawDiagnostic)
  typeDiagnostics : Text → CheckM σ (List RawDiagnostic)

namespace CheckM

variable {σ : Type}

/-- The answer to an inquiry. -/
def inquire (inquiry : Inquiry) : CheckM σ inquiry.Answer := fun state ↦
  Dialogue.ask inquiry fun answer ↦ Dialogue.done (.ok answer, state)

def options : CheckM σ CompilerOptions := inquire .options

def scripts : CheckM σ (List Text) := inquire .scripts

def version (path : Text) : CheckM σ Text := inquire (.version path)

def read (path : Text) : CheckM σ (Option Text) := inquire (.file (.read path))

/-- The modules that names stand for in a file. -/
def resolve (importer : Text) (names : List Text) : CheckM σ (List (Option ResolvedModule)) := do
  match ← inquire (.resolve importer names) with
  | .ok modules => return modules
  | .error e => throw e

end CheckM

namespace Workspace

/-- The answers of a workspace to a checker. -/
def answer (fs : FileSystem) : (inquiry : Inquiry) → StateM Workspace inquiry.Answer
  | .options => return (← get).options
  | .scripts => return (← get).scripts
  | .version path => return (← get).version fs path
  | .file request => lookUp fs request
  | .resolve importer names => resolveNames fs importer names

end Workspace

end FencedCode
