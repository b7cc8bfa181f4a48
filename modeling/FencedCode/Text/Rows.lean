import FencedCode.Text.Basic

/-!
# Rows

A row is a maximal piece of a text that ends at a line feed or at the end of the text. The rows
keep their line feeds, so their concatenation is the text.
-/

namespace FencedCode.Text

/-- The rows of a text, each with its line feed. -/
def rows : Text → List Text
  | [] => []
  | c :: s =>
    if c = '\n' then [c] :: rows s
    else
      match rows s with
      | [] => [[c]]
      | r :: rest => (c :: r) :: rest

theorem flatten_rows (s : Text) : (rows s).flatten = s := by
  induction s with
  | nil => rfl
  | cons c s ih =>
    unfold rows
    split
    · simp [ih]
    · cases h : rows s with
      | nil => simp_all
      | cons r rest => simp_all

/-- A row without its line feed and without the carriage return before it. -/
def rowBody (row : Text) : Text := dropFinal '\r' (dropFinal '\n' row)

/-- A row as it is shown: a terminated row loses its line feed and the carriage return before it,
and an unterminated row is kept whole. -/
def shownRow (row : Text) : Text :=
  if row.getLast? = some '\n' then dropFinal '\r' row.dropLast else row

/-- The number of line feeds. -/
def lineFeeds (s : Text) : Nat := s.count '\n'

@[simp] theorem lineFeeds_append (s t : Text) :
    lineFeeds (s ++ t) = lineFeeds s + lineFeeds t := by
  simp [lineFeeds]

end FencedCode.Text
