import FencedCode.Text.Blank
import FencedCode.Text.Rows

/-!
# File directives

A line that begins with the directive marker and a file name opens a new file of its block. The
name is the longest run of name characters; words after it are flags, and one flag hides the file.
-/

namespace FencedCode

/-- A directive line, read. -/
structure Directive where
  name : Text
  hidden : Bool
deriving DecidableEq

namespace Directive

def marker : Text := "// file: ".toList

/-- The flag of files that are checked but not shown. -/
def hidingFlag : Text := "noEmit".toList

/-- The characters of file names: ASCII letters and digits, and a few marks. -/
def isNameChar (c : Char) : Bool :=
  c.isAlphanum || c = '_' || c = '-' || c = '.' || c = '/'

/-- The directive on a line, given without its line break. Only white space may follow the name
directly, and flags begin behind a space. -/
def parse? (line : Text) : Option Directive := do
  let rest ← Text.stripStart? marker line
  let name := rest.takeWhile isNameChar
  let tail := rest.dropWhile isNameChar
  if name.isEmpty then none
  else if Text.allBlank tail then some ⟨name, false⟩
  else do
    let flags ← Text.stripStart? [' '] tail
    some ⟨name, (Text.words flags).contains hidingFlag⟩

end Directive

end FencedCode
