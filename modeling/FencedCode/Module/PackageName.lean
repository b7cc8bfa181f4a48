import FencedCode.Text.Search

/-!
# Package names

A bare module name begins with the name of a package, which has one segment, or two when it begins
with a scope. What follows is a path inside the package. Declarations of a package may come from
a package of their own, whose name has no scope.
-/

namespace FencedCode.PackageName

/-- The package of a module name, and the path inside it. -/
def split (name : Text) : Text × Option Text :=
  match Text.splitFirst '/' name with
  | none => (name, none)
  | some (first, rest) =>
    if name.head? = some '@' then
      match Text.splitFirst '/' rest with
      | none => (name, none)
      | some (second, inner) => (first ++ '/' :: second, some inner)
    else (first, some rest)

/-- The package that holds the declarations of a package. -/
def declarations (package : Text) : Text :=
  "@types/".toList ++
    match package with
    | '@' :: inScope => Text.replaceFirst '/' "__".toList inScope
    | _ => package

end FencedCode.PackageName
