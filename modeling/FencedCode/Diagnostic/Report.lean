import FencedCode.Diagnostic.Failure

/-!
# Reports

A report shows failures one after another, each with an excerpt of its source around the failing
line. Without excerpts a report has one entry per failure and no more.

The last line of an excerpt is a sum of machine words. Where it does not fit one, the build decides
whether the report fails or is made with what is left of the sum.
-/

namespace FencedCode

/-- What becomes of a sum that does not fit a machine word. -/
inductive Overflow
  | fails
  | wraps
deriving DecidableEq

/-- The sum of two machine words. -/
def Overflow.add? (overflow : Overflow) (m n : Nat) : Option Nat :=
  if m + n < UInt64.size then some (m + n)
  else
    match overflow with
    | .fails => none
    | .wraps => some ((m + n) % UInt64.size)

structure ReportOptions where
  colored : Bool
  /-- Whether excerpts are shown. -/
  excerpts : Bool
  linesBefore : UInt64
  linesAfter : UInt64
deriving DecidableEq

namespace ReportOptions

def standard : ReportOptions := ⟨true, true, 5, 6⟩

/-- Without colours. -/
def plain : ReportOptions := { standard with colored := false }

/-- One line for each failure. -/
def short : ReportOptions := { standard with colored := false, excerpts := false }

end ReportOptions

namespace Report

/-- Escape sequences of terminals: red and bold around the text. -/
def paintError (s : Text) : Text := "\x1b[1m\x1b[31m".toList ++ s ++ "\x1b[39m\x1b[0m".toList

/-- Cyan around the text. -/
def paintGutter (s : Text) : Text := "\x1b[36m".toList ++ s ++ "\x1b[39m".toList

/-- A text as it is, or painted where colours are wanted. -/
def paint (options : ReportOptions) (painter : Text → Text) (s : Text) : Text :=
  if options.colored then painter s else s

/-- The column in front of a row: a mark on the failing line, and the number of the line. -/
def gutter (index line : Nat) : Text :=
  (if index = line then '>' else ' ') :: Text.padStart 4 (Text.ofNat (index + 1)) ++ " |".toList

def excerptRow (options : ReportOptions) (line index : Nat) (row : Text) : Text :=
  paint options paintGutter (gutter index line) ++ ' ' :: row ++ ['\n']

/-- The lines of a source around `line`, which is counted from zero. -/
def excerpt? (overflow : Overflow) (options : ReportOptions) (source : Text) (line : Nat) :
    Option Text := do
  let first := line - options.linesBefore.toNat
  let last ← overflow.add? line options.linesAfter.toNat
  let rows := ((Text.rows source).map Text.shownRow).zipIdx
  let shown := rows.filter fun (_, index) ↦ first ≤ index ∧ index ≤ last
  return shown.flatMap fun (row, index) ↦ excerptRow options line index row

/-- The place of a failure, as its entry names it. -/
def place (f : Failure) : Text :=
  match f.location with
  | .at line column => f.document ++ ':' :: Text.ofNat line ++ ':' :: Text.ofNat column
  | .block startLine => f.document ++ ':' :: Text.ofNat startLine ++ " (code block)".toList

/-- The entry of one failure. -/
def entryFor? (overflow : Overflow) (options : ReportOptions) (f : Failure) : Option Text := do
  let title := paint options paintError "error".toList ++ ": ".toList ++ f.message ++ ['\n']
  let location := "  --> ".toList ++ place f ++ ['\n']
  let file := "  in ".toList ++ f.sourcePath ++ ['\n']
  let source ←
    match options.excerpts, f.fileLine with
    | true, some line => do
      let shown ← excerpt? overflow options f.source line
      pure ('\n' :: shown)
    | _, _ => pure []
  return title ++ location ++ file ++ source

/-- The report on several failures. -/
def ofFailures? (overflow : Overflow) (options : ReportOptions) (failures : List Failure) :
    Option Text :=
  if options.excerpts then ['\n'].intercalate <$> failures.mapM (entryFor? overflow options)
  else some (failures.flatMap fun f ↦ f.shown ++ ['\n'])

end Report

end FencedCode
