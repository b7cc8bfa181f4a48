import FencedCode.Module.Lookup
import FencedCode.Options.Basic
import FencedCode.Text.Search

/-!
# Mapped module names

The options may map patterns of module names to files. A pattern with a star matches every name
that begins and ends like it, and the star stands for the text between. A pattern without a star
matches only itself and is preferred; among patterns with a star the longest beginning wins.
-/

namespace FencedCode

/-- A pattern with the names to try in its place, in order. -/
structure Mapping where
  pattern : Text
  substitutions : List Text
deriving DecidableEq

namespace Mapping

/-- What the star stands for in a name; nothing stands for it in a pattern without one. -/
def capture? (m : Mapping) (name : Text) : Option Text :=
  match Text.splitFirst '*' m.pattern with
  | none => if m.pattern = name then some [] else none
  | some (beginning, ending) =>
    (Text.stripStart? beginning name).bind (Text.stripEnd? ending)

/-- The size of the beginning of a pattern; a pattern without a star has none. -/
def beginningSize? (m : Mapping) : Option Nat :=
  (Text.splitFirst '*' m.pattern).map fun (beginning, _) ↦ Text.byteSize beginning

/-- Whether a mapping is preferred to another at least as much as that one to it. -/
def atLeast (m other : Mapping) : Bool :=
  match m.beginningSize?, other.beginningSize? with
  | none, _ => true
  | some _, none => false
  | some n, some k => k ≤ n

/-- The mapping to use for a name, with what its star stands for. Of equals the last one is used. -/
def choose (name : Text) (mappings : List Mapping) : Option (Mapping × Text) :=
  let fitting := mappings.filterMap fun m ↦ (m.capture? name).map (m, ·)
  fitting.foldl (fun best next ↦
    match best with
    | none => some next
    | some b => if next.1.atLeast b.1 then some next else some b) none

/-- The name to try for one substitution. -/
def candidate (capture substitution : Text) : Text :=
  Path.normalize (Text.replaceFirst '*' capture substitution)

/-- The first of the paths that resolves. -/
def firstResolved : List Text → Lookup (Option Text)
  | [] => return none
  | path :: rest => do
    match ← Lookup.fileOrFolder path with
    | some found => return some found
    | none => firstResolved rest

/-- The file that a name is mapped to. -/
def resolve (name : Text) (mappings : List Mapping) : Lookup (Option Text) :=
  match choose name mappings with
  | none => return none
  | some (m, capture) => firstResolved (m.substitutions.map (candidate capture))

end Mapping

end FencedCode
