import FencedCode.Text.Basic

/-!
# Paths of the operating system

Configuration files are named by paths as the operating system takes them. Such a path is kept as
it was written: joining adds a separator where one is missing and resolves nothing, and the parent
drops the last component together with the repeated separators and `.` components before it.
-/

namespace FencedCode.NativePath

def isAbsolute (p : Text) : Bool := p.head? = some '/'

/-- A path read from a folder. An absolute path stands for itself. -/
def join (folder p : Text) : Text :=
  if isAbsolute p then p
  else if folder.isEmpty || folder.getLast? = some '/' then folder ++ p
  else folder ++ '/' :: p

/-- The part of a path that is no component: the root, or a `.` that begins the path. -/
def start (p : Text) : Text :=
  match p with
  | '/' :: _ => ['/']
  | ['.'] => ['.']
  | '.' :: '/' :: _ => ['.']
  | _ => []

/-- Components that add nothing to a path. -/
def isVoid (component : Text) : Bool := component = [] || component = ['.']

/-- The folders above a path, nearest first, from its components in reverse order. -/
def foldersAbove (start : Text) : List Text → List Text
  | [] => if start = ['.'] then [[]] else []
  | component :: rest =>
    if isVoid component then foldersAbove start rest
    else
      (start ++ ['/'].intercalate (rest.dropWhile isVoid).reverse) :: foldersAbove start rest

/-- All proper ancestors of a path, nearest first. -/
def parents (p : Text) : List Text :=
  foldersAbove (start p) ((p.drop (start p).length).splitOn '/').reverse

/-- The folder of a path; the root and the empty path have none. -/
def parent? (p : Text) : Option Text := (parents p).head?

/-- The folder of a path as a place to look files up from. -/
def folder (p : Text) : Text := (parent? p).getD ['.']

/-- A path and its proper ancestors, nearest first. -/
def ancestors (p : Text) : List Text := p :: parents p

end FencedCode.NativePath
