import FencedCode.Text.Rows
import FencedCode.Text.Search

/-!
# Placeholders for empty lines

Emitters drop empty lines. A comment that nobody writes stands in for each of them while the code
is compiled, and is removed from what was emitted. The number and the order of lines stay as they
are.
-/

namespace FencedCode

def placeholder : Text := "//__NEWLINE__".toList

/-- A row, with the placeholder when nothing stands before its line break. -/
def fillRow (row : Text) : Text :=
  if (Text.rowBody row).isEmpty then placeholder ++ row else row

/-- The code with a placeholder on every empty line. -/
def fillEmptyLines (code : Text) : Text := (Text.rows code).flatMap fillRow

/-- The code without placeholders. -/
def clearPlaceholders (code : Text) : Text := Text.replaceAll placeholder [] code

end FencedCode
