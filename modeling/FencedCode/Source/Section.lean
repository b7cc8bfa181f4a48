import FencedCode.Source.Directive
import FencedCode.Source.File

/-!
# Sections of a block

The directive lines cut the text of a block into a preamble and sections. A section is a directive
row with the body up to the next one. Preamble, directive rows and bodies follow one another
without a gap, so together they are the text.
-/

namespace FencedCode

/-- A directive row with the text that belongs to it. -/
structure BlockSection where
  directive : Directive
  /-- The directive row as it stands in the text. -/
  header : Text
  body : Text

/-- The text of a block, cut at its directive rows. -/
structure Sections where
  preamble : Text
  sections : List BlockSection

namespace Sections

/-- The cut when one row more stands in front. -/
def prepend (row : Text) (s : Sections) : Sections :=
  match Directive.parse? (Text.rowBody row) with
  | some directive => ⟨[], ⟨directive, row, s.preamble⟩ :: s.sections⟩
  | none => ⟨row ++ s.preamble, s.sections⟩

def ofRows (rows : List Text) : Sections := rows.foldr prepend ⟨[], []⟩

def ofText (text : Text) : Sections := ofRows (Text.rows text)

/-- The text that was cut. -/
def text (s : Sections) : Text :=
  s.preamble ++ s.sections.flatMap fun part ↦ part.header ++ part.body

theorem text_prepend (row : Text) (s : Sections) : (prepend row s).text = row ++ s.text := by
  unfold prepend
  split <;> simp [text]

@[simp] theorem text_ofText (t : Text) : (ofText t).text = t := by
  have h : ∀ rows : List Text, (ofRows rows).text = rows.flatten := by
    intro rows
    induction rows with
    | nil => rfl
    | cons row rows ih =>
      have : ofRows (row :: rows) = prepend row (ofRows rows) := rfl
      rw [this, text_prepend, ih, List.flatten_cons]
  rw [ofText, h, Text.flatten_rows]

/-- Whether the preamble is a file: it is when it says something, or when there is nothing else. -/
def hasPreambleFile (s : Sections) : Bool :=
  s.sections.isEmpty || !Text.allBlank s.preamble

end Sections

/-- The name of the file that holds a text without directives. -/
def defaultFileName : Text := "index.ts".toList

/-- The path of a file of a block. -/
def blockPath (folder name : Text) : Text := folder ++ '/' :: name

namespace FileSet

/-- The file of one name with its key. -/
def entry (folder name code : Text) (hidden : Bool) : Text × SourceFile :=
  (blockPath folder name, ⟨blockPath folder name, code, hidden⟩)

/-- The files of a block in order of appearance. A name that returns replaces the file in its
place. -/
def ofSections (folder default : Text) (s : Sections) : FileSet :=
  let first := if s.hasPreambleFile then [entry folder default s.preamble false] else []
  Table.ofList (first ++ s.sections.map fun part ↦
    entry folder part.directive.name part.body part.directive.hidden)

/-- The files that the text of a block stands for. -/
def ofBlock (folder default text : Text) : FileSet :=
  ofSections folder default (Sections.ofText text)

end FileSet

namespace Sections

/-- The line numbers of the bodies, when `line` line feeds stand in front of the sections. -/
def bodyLines (folder : Text) (line : Nat) : List BlockSection → List (Text × Nat)
  | [] => []
  | part :: rest =>
    let start := line + Text.lineFeeds part.header
    (blockPath folder part.directive.name, start) ::
      bodyLines folder (start + Text.lineFeeds part.body) rest

end Sections

/-- The line of a block's text at which each file begins, counted from zero. -/
def startLines (folder default text : Text) : Table Text Nat :=
  let s := Sections.ofText text
  let first := if s.hasPreambleFile then [(blockPath folder default, 0)] else []
  Table.ofList (first ++ Sections.bodyLines folder (Text.lineFeeds s.preamble) s.sections)

end FencedCode
