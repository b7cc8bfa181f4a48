import FencedCode.Table

/-!
# Source files of a block

A code block stands for one or more source files. They live under names that exist on no disk, and
a file that is hidden is checked like the others but left out of what is shown.
-/

namespace FencedCode

structure SourceFile where
  path : Text
  code : Text
  /-- Checked, but not shown. -/
  hidden : Bool
deriving DecidableEq

/-- Source files by key, in order of appearance. -/
abbrev FileSet := Table Text SourceFile

end FencedCode
