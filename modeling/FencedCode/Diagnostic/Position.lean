import FencedCode.Text.Rows

/-!
# Lines and characters

A byte offset into a text stands for a line and a character in it, both counted from zero. An
offset behind the end is taken as the end, and an offset inside a character comes after that
character.
-/

namespace FencedCode

/-- A line of a text, and a character in it. -/
structure Position where
  line : Nat
  character : Nat
deriving DecidableEq

namespace Position

/-- The position behind one more character. -/
def after (p : Position) (c : Char) : Position :=
  if c = '\n' then ⟨p.line + 1, 0⟩ else ⟨p.line, p.character + 1⟩

/-- The position of an offset into the rest of a text, from the position where the rest begins. -/
def advance (p : Position) : Nat → Text → Position
  | 0, _ => p
  | _ + 1, [] => p
  | offset + 1, c :: s => (p.after c).advance (offset + 1 - c.utf8Size) s

@[simp] theorem advance_zero (p : Position) (s : Text) : p.advance 0 s = p := by
  cases s <;> rfl

/-- The position of an offset into a text. -/
def ofOffset (text : Text) (offset : Nat) : Position := (⟨0, 0⟩ : Position).advance offset text

end Position

/-- The number of lines of a text; the piece behind the last line feed counts, also when it is
empty. -/
def lineCount (text : Text) : Nat := Text.lineFeeds text + 1

end FencedCode
