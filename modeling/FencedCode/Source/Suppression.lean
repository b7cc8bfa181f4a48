import FencedCode.Text.Blank

/-!
# Suppression comments

Comments that silence the type checker mean nothing in compiled code. Such a comment runs to the
end of its line. On a line of its own it goes together with the line break and the blank lines
before it; behind code only the comment goes.
-/

namespace FencedCode

/-- The beginnings of the comments. -/
def suppressionMarks : List Text := ["// @ts-ignore".toList, "// @ts-expect-error".toList]

/-- Whether a text begins with a suppression comment. -/
def startsSuppression (s : Text) : Bool := suppressionMarks.any (·.isPrefixOf s)

/-- What is kept of the text before a comment. -/
def keptBefore (before : Text) : Text :=
  let code := Text.trimEnd before
  let gap := before.drop code.length
  if '\n' ∈ gap then code ++ gap.takeWhile (· ≠ '\n') else before

/-- The pass over the rest of the code, inside a comment or not. What was read since the last
comment is kept in reverse, and is written when the next one begins. -/
def stripFrom (inComment : Bool) (before : Text) : Text → Text
  | [] => before.reverse
  | c :: s =>
    if inComment then
      if c = '\n' then stripFrom false [c] s else stripFrom true [] s
    else if startsSuppression (c :: s) then keptBefore before.reverse ++ stripFrom true [] s
    else stripFrom false (c :: before) s

/-- The code without suppression comments. -/
def stripSuppressions (code : Text) : Text := stripFrom false [] code

end FencedCode
