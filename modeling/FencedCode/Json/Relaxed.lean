import FencedCode.Text.Blank

/-!
# Comments and trailing commas

Configuration files are JSON with comments and trailing commas. Both are taken out before the text
is read, in one pass that leaves string literals alone. A comment gives way to the line feeds it
held, and a trailing comma to a space, so every line of the result comes from the line of the
same number.
-/

namespace FencedCode.Json

/-- Where the pass stands. -/
inductive Region
  | plain
  | string
  /-- Behind a backslash in a string. -/
  | escape
  | lineComment
  /-- Behind the slash that opens a block comment. -/
  | blockStart
  /-- In a block comment, with a mark whether its last character was a star. -/
  | blockComment (star : Bool)
deriving DecidableEq

/-- A written text, in reverse, whose last character that is no white space was a comma: the comma
becomes a space. -/
def blankComma (written : Text) : Text :=
  match written.dropWhile Text.isBlank with
  | ',' :: before => written.takeWhile Text.isBlank ++ ' ' :: before
  | _ => written

/-- The pass over the rest of a text; what is written so far is kept in reverse. -/
def relaxFrom : Region → Text → Text → Text
  | _, written, [] => written.reverse
  | .plain, written, c :: s =>
    if c = '"' then relaxFrom .string (c :: written) s
    else if c = '/' ∧ s.head? = some '/' then relaxFrom .lineComment written s
    else if c = '/' ∧ s.head? = some '*' then relaxFrom .blockStart written s
    else if c = ']' ∨ c = '}' then relaxFrom .plain (c :: blankComma written) s
    else relaxFrom .plain (c :: written) s
  | .string, written, c :: s =>
    if c = '\\' then relaxFrom .escape (c :: written) s
    else if c = '"' then relaxFrom .plain (c :: written) s
    else relaxFrom .string (c :: written) s
  | .escape, written, c :: s => relaxFrom .string (c :: written) s
  | .lineComment, written, c :: s =>
    if c = '\n' then relaxFrom .plain (c :: written) s else relaxFrom .lineComment written s
  | .blockStart, written, _ :: s => relaxFrom (.blockComment false) written s
  | .blockComment star, written, c :: s =>
    if star ∧ c = '/' then relaxFrom .plain written s
    else relaxFrom (.blockComment (c = '*')) (if c = '\n' then c :: written else written) s

/-- The text without comments and trailing commas. -/
def relax (s : Text) : Text := relaxFrom .plain [] s

end FencedCode.Json
