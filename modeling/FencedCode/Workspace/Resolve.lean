import FencedCode.Error
import FencedCode.Workspace.Basic

/-!
# Resolution in a workspace

A module name takes one of three routes. A redirected name stands for the path it is redirected to,
with the identity given for it, and must be found. A relative name in a written file is looked up
in the folder of that file, anew each time, because written files come and go. Every other name
goes to the resolver, once for each importing file.
-/

namespace FencedCode.Workspace

/-- A redirected name, from the outcome for its target. -/
def redirected (name : Text) (redirect : Redirect) (found : Option ResolvedModule) :
    Except MissingRedirect (Option ResolvedModule) :=
  match found with
  | some m => .ok (some { m with installed := false, package := some redirect.package })
  | none => .error ⟨name, redirect.target⟩

/-- The path that a relative name means in a written file. -/
def relativeTarget (importer name : Text) : Text :=
  Path.join (Path.parent (Path.normalize importer)) name

/-- The outcome of the resolver for a name, remembered. -/
def resolveOrdinary (fs : FileSystem) (importer name : Text) :
    StateM Workspace (Option ResolvedModule) := do
  match (← get).memo.kept? importer name with
  | some kept =>
    modify fun w ↦ { w with memo := w.memo.countHit }
    return kept
  | none =>
    let found ← runLookup fs ((← get).resolver name importer)
    modify fun w ↦ { w with memo := w.memo.keep importer name found }
    return found

/-- The module that a name stands for in a file. -/
def resolveName (fs : FileSystem) (importer name : Text) :
    StateM Workspace (Except MissingRedirect (Option ResolvedModule)) := do
  let w ← get
  match w.redirects.get? name with
  | some redirect =>
    return redirected name redirect (← runLookup fs (w.resolver redirect.target importer))
  | none =>
    if Path.isRelative name && w.isVirtual importer then
      let found ← runLookup fs (Lookup.fileOrFolder (relativeTarget importer name))
      return .ok (found.bind ResolvedModule.ofFile?)
    else return .ok (← resolveOrdinary fs importer name)

/-- The modules that names stand for in a file, in order. The first redirect that leads nowhere
ends the request. -/
def resolveNames (fs : FileSystem) (importer : Text) :
    List Text → StateM Workspace (Except MissingRedirect (List (Option ResolvedModule)))
  | [] => return .ok []
  | name :: rest => do
    match ← resolveName fs importer name with
    | .error e => return .error e
    | .ok found =>
      match ← resolveNames fs importer rest with
      | .error e => return .error e
      | .ok others => return .ok (found :: others)

end FencedCode.Workspace
