import FencedCode.Text.Basic

/-!
# White space

White space is the Unicode property `White_Space`. Trimming removes it from the ends of a text,
and the words of a text are the maximal runs without it.
-/

namespace FencedCode.Text

/-- The Unicode property `White_Space`. -/
def isBlank (c : Char) : Bool :=
  let n := c.toNat
  (9 ≤ n && n ≤ 13) || n = 0x20 || n = 0x85 || n = 0xA0 || n = 0x1680 ||
    (0x2000 ≤ n && n ≤ 0x200A) || n = 0x2028 || n = 0x2029 || n = 0x202F || n = 0x205F ||
    n = 0x3000

theorem isBlank_of_isWhitespace {c : Char} (h : c.isWhitespace) : isBlank c := by
  simp only [Char.isWhitespace, Bool.or_eq_true, decide_eq_true_eq] at h
  rcases h with ((rfl | rfl) | rfl) | rfl <;> decide

def trimStart (s : Text) : Text := s.dropWhile isBlank

def trimEnd (s : Text) : Text := (s.reverse.dropWhile isBlank).reverse

def trim (s : Text) : Text := trimEnd (trimStart s)

/-- Every character is white space. -/
def allBlank (s : Text) : Bool := s.all isBlank

/-- The maximal runs without white space. -/
def words (s : Text) : List Text := (s.splitOnP isBlank).filter fun w ↦ !w.isEmpty

end FencedCode.Text
