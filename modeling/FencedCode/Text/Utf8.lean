import FencedCode.Text.Basic

/-!
# UTF-8

Bytes are read as UTF-8 without repair: bytes that are not well formed have no text. A byte order
mark in front is removed on request, once.
-/

namespace FencedCode.Text

/-- The text with the given UTF-8 form. -/
def ofUtf8? (bytes : List UInt8) : Option Text :=
  (String.fromUTF8? ⟨bytes.toArray⟩).map String.toList

/-- The bytes of the UTF-8 form. -/
def toUtf8 (s : Text) : List UInt8 := (String.ofList s).toUTF8.toList

/-- The bytes after a byte order mark, or all bytes when there is none. -/
def dropMark : List UInt8 → List UInt8
  | 0xEF :: 0xBB :: 0xBF :: bytes => bytes
  | bytes => bytes

/-- The text of a file whose byte order mark does not count. -/
def ofMarkedUtf8? (bytes : List UInt8) : Option Text := ofUtf8? (dropMark bytes)

end FencedCode.Text
