import FencedCode.Table

/-!
# Resolved modules

A module name resolves to a file of a known kind. A file that was found among installed packages is
marked, and it may carry the identity of its package.
-/

namespace FencedCode

/-- The identity of a package, with a file inside it. -/
structure PackageId where
  name : Text
  inner : Text
  version : Text
deriving DecidableEq

/-- The kinds of files that a module can be. -/
inductive FileKind
  | ts
  | tsx
  | declaration
  | js
  | jsx
  | json
deriving DecidableEq

namespace FileKind

/-- The ending of the file names of a kind. -/
def ending : FileKind → Text
  | ts => ".ts".toList
  | tsx => ".tsx".toList
  | declaration => ".d.ts".toList
  | js => ".js".toList
  | jsx => ".jsx".toList
  | json => ".json".toList

/-- The kind of a file name. Declarations come first, since their ending contains another one. -/
def ofName? (name : Text) : Option FileKind :=
  [declaration, ts, tsx, js, jsx, json].find? fun kind ↦ kind.ending.isSuffixOf name

/-- The kinds that a module name without an ending may stand for, in order of preference. -/
def sources : List FileKind := [ts, tsx, declaration]

end FileKind

structure ResolvedModule where
  file : Text
  kind : FileKind
  /-- Found among installed packages. -/
  installed : Bool
  package : Option PackageId
deriving DecidableEq

/-- A file of the project itself, when its name has a known ending. -/
def ResolvedModule.ofFile? (file : Text) : Option ResolvedModule :=
  (FileKind.ofName? file).map fun kind ↦ ⟨file, kind, false, none⟩

/-- What a redirected module name stands for. -/
structure Redirect where
  /-- The path to resolve in place of the name. -/
  target : Text
  package : PackageId
deriving DecidableEq

/-- Redirects by module name. -/
abbrev Redirects := Table Text Redirect

end FencedCode
