import FencedCode.Disk.FileSystem
import FencedCode.Module.Memo
import FencedCode.Module.Resolver
import FencedCode.Workspace.Overlay

/-!
# Workspaces

A workspace merges the files of an overlay with those of a disk. A written file hides the file of
the same name on disk; everything else is read from disk and remembered. Names are normalized before
they are looked up, so spellings of one name share one file.
-/

namespace FencedCode

structure Workspace where
  options : CompilerOptions
  resolver : Resolver
  redirects : Redirects
  overlay : Overlay
  /-- The files of the current request. -/
  scripts : List Text
  memo : ResolutionMemo
  reads : ReadCache

namespace Workspace

/-- A workspace in which nothing has happened. -/
def new (options : CompilerOptions) (resolver : Resolver) (redirects : Redirects) : Workspace :=
  ⟨options, resolver, redirects, Overlay.empty, [], ResolutionMemo.empty, ReadCache.empty⟩

/-- A workspace that resolves by its options. -/
def ofOptions (options : CompilerOptions) (redirects : Redirects) : Workspace :=
  new options (Resolver.ofOptions options) redirects

def write (w : Workspace) (path text : Text) : Workspace :=
  { w with overlay := w.overlay.write path text }

def setScripts (w : Workspace) (names : List Text) : Workspace :=
  { w with scripts := names.map Path.normalize }

/-- Whether a file was written, whatever is on disk. -/
def isVirtual (w : Workspace) (path : Text) : Bool := w.overlay.contains path

def fileExists (w : Workspace) (fs : FileSystem) (path : Text) : Bool :=
  w.isVirtual path || fs.fileExists (Path.normalize path)

/-- What the names of the files in a folder begin with. -/
def folderStart (folder : Text) : Text :=
  (folder.reverse.dropWhile (· = '/')).reverse ++ ['/']

/-- A folder exists when a file of the current request lies in it, or on disk. -/
def folderExists (w : Workspace) (fs : FileSystem) (path : Text) : Bool :=
  let folder := Path.normalize path
  w.scripts.any (folderStart folder).isPrefixOf || fs.folderExists folder

/-- The version of a file: a count of changes for a written file, and the time of the last change
for a file on disk. -/
def version (w : Workspace) (fs : FileSystem) (path : Text) : Text :=
  match w.overlay.get? path with
  | some file => Text.ofNat file.version
  | none => fs.version (Path.normalize path)

/-- The text of a file, and the workspace that remembers it. -/
def read (fs : FileSystem) (path : Text) : StateM Workspace (Option Text) := fun w ↦
  match w.overlay.get? path with
  | some file => (some file.text, w)
  | none =>
    let (text, reads) := w.reads.read fs (Path.normalize path)
    (text, { w with reads })

/-- The answers to the questions of a resolver. -/
def lookUp (fs : FileSystem) : (request : FileRequest) → StateM Workspace request.Answer
  | .fileExists path => return (← get).fileExists fs path
  | .folderExists path => return (← get).folderExists fs path
  | .read path => read fs path

/-- A lookup in the workspace. -/
def runLookup (fs : FileSystem) {α : Type} (lookup : Lookup α) : StateM Workspace α :=
  Dialogue.run (lookUp fs) lookup

end Workspace

end FencedCode
