import FencedCode.Source.Section

/-!
# Listings

A listing is the text that shows a list of files: the code itself for one file, and for several
files each trimmed code under its directive line. Hidden files are left out.
-/

namespace FencedCode

namespace SourceFile

/-- The name of a file in a folder; a file from elsewhere has its whole path. -/
def nameIn (folder : Text) (file : SourceFile) : Text :=
  (Text.stripStart? (folder ++ ['/']) file.path).getD file.path

/-- A file under its directive line. -/
def withDirective (folder : Text) (file : SourceFile) : Text :=
  Directive.marker ++ file.nameIn folder ++ '\n' :: Text.trim file.code

end SourceFile

/-- Two empty lines stand between the files of a listing. -/
def listingGap : Text := ['\n', '\n', '\n']

/-- The text that shows the files of a folder. -/
def listing (folder : Text) (files : List SourceFile) : Text :=
  match files.filter fun file ↦ !file.hidden with
  | [only] => only.code
  | shown => listingGap.intercalate (shown.map (·.withDirective folder))

end FencedCode
