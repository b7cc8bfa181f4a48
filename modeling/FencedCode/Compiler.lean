import FencedCode.Checker.Basic
import FencedCode.Source.File
import FencedCode.Source.Placeholder

/-!
# Compilers

A compiler is a workspace with the state of a checker. It lives through many requests; each request
writes its files to the workspace, makes them the files to check, and goes through them in order.
-/

namespace FencedCode

/-- A source file with its emitted code and its diagnostics. -/
structure CompiledFile where
  path : Text
  code : Text
  hidden : Bool
  diagnostics : List Diagnostic
deriving DecidableEq

/-- Compiled files by key, in the order of the request. -/
abbrev CompiledFiles := Table Text CompiledFile

namespace CompiledFiles

/-- The emitted code as source files. -/
def emitted (files : CompiledFiles) : FileSet :=
  files.map fun _ file ↦ ⟨file.path, file.code, file.hidden⟩

end CompiledFiles

structure Compiler (σ : Type) where
  workspace : Workspace
  state : σ

/-- A step of a request. What it did stays done when it fails. -/
abbrev CompileM (σ α : Type) : Type := ExceptT MissingRedirect (StateM (Compiler σ)) α

namespace Compiler

variable {σ : Type}

/-- A call of the checker, answered by the workspace. -/
def call (fs : FileSystem) {α : Type} (action : CheckM σ α) : CompileM σ α := fun compiler ↦
  let ((result, state), workspace) :=
    Dialogue.run (Workspace.answer fs) (action compiler.state) compiler.workspace
  (result, ⟨workspace, state⟩)

/-- A step that only concerns the workspace. -/
def inWorkspace {α : Type} (action : StateM Workspace α) : CompileM σ α := fun compiler ↦
  let (a, workspace) := action compiler.workspace
  (.ok a, { compiler with workspace })

/-- The workspace with the files of a request, which become the files to check. Empty lines are
filled. -/
def prepare (files : FileSet) (w : Workspace) : Workspace :=
  let written := files.entries.foldl
    (fun w (key, file) ↦ w.write key (fillEmptyLines file.code)) (w.setScripts [])
  written.setScripts files.keys

/-- A raw diagnostic with its position in the text that was checked. -/
def place (fs : FileSystem) (raw : RawDiagnostic) : StateM Workspace Diagnostic := do
  match raw.file with
  | none => return .unplaced raw
  | some file =>
    match ← Workspace.read fs file with
    | some text => return .ofRaw raw text
    | none => return .unplaced raw

def placeAll (fs : FileSystem) : List RawDiagnostic → StateM Workspace (List Diagnostic)
  | [] => return []
  | raw :: rest => do
    let first ← place fs raw
    return first :: (← placeAll fs rest)

/-- The code among emitted files. -/
def emittedCode (files : List EmittedFile) : Text :=
  match files with
  | [] => []
  | first :: _ => clearPlaceholders first.text

/-- What a checker says about one file. -/
structure Findings where
  emitted : List EmittedFile
  diagnostics : List RawDiagnostic

/-- All calls of the checker for one file of a request. The first that fails ends the request. -/
def check (checker : Checker σ) (fs : FileSystem) (key : Text) : CompileM σ Findings := do
  let emitted ← call fs (checker.emit key)
  let ofOptions ← call fs checker.optionDiagnostics
  let ofSyntax ← call fs (checker.syntaxDiagnostics key)
  let ofTypes ← call fs (checker.typeDiagnostics key)
  return ⟨emitted, ofOptions ++ ofSyntax ++ ofTypes⟩

/-- One file of a request whose files are in the workspace. -/
def compileFile (checker : Checker σ) (fs : FileSystem) (key : Text) (file : SourceFile) :
    CompileM σ CompiledFile := do
  let findings ← check checker fs key
  let diagnostics ← inWorkspace (placeAll fs findings.diagnostics)
  return ⟨key, emittedCode findings.emitted, file.hidden, diagnostics⟩

def compileFiles (checker : Checker σ) (fs : FileSystem) :
    List (Text × SourceFile) → CompileM σ (List (Text × CompiledFile))
  | [] => return []
  | (key, file) :: rest => do
    let compiled ← compileFile checker fs key file
    return (key, compiled) :: (← compileFiles checker fs rest)

/-- A request for files. -/
def compile (checker : Checker σ) (fs : FileSystem) (files : FileSet) :
    CompileM σ CompiledFiles := do
  modify fun c ↦ { c with workspace := prepare files c.workspace }
  return Table.ofList (← compileFiles checker fs files.entries)

end Compiler

end FencedCode
