import FencedCode.Text.Basic

/-!
# File names in normal form

Names of compiled files are texts of segments with `/` between them. Their folders need not exist,
so a name is normalized by its letters alone: a backslash counts as `/`, empty segments and `.`
vanish, and `..` takes the segment before it away. The walk over the segments keeps a stack, and
the normal form is the stack written out.
-/

namespace FencedCode.Path

def dot : Text := ['.']

def dotDot : Text := ['.', '.']

def slash : Text := ['/']

/-- A backslash is read as a separator. -/
def separator (c : Char) : Char := if c = '\\' then '/' else c

/-- Whether a name starts at the root. -/
def isAbsolute (s : Text) : Bool := s.head? = some '/'

/-- One segment more on the stack of walked segments, whose top comes first. Above the root there
is only the root. -/
def push (absolute : Bool) (stack : List Text) (segment : Text) : List Text :=
  if segment = [] ∨ segment = dot then stack
  else if segment = dotDot then
    match stack with
    | top :: below =>
      if top ≠ dotDot then below else if absolute then stack else dotDot :: stack
    | [] => if absolute then [] else [dotDot]
  else segment :: stack

/-- The stack after all segments of a name. -/
def walk (absolute : Bool) (segments : List Text) : List Text :=
  segments.foldl (push absolute) []

/-- A stack written out as a name. -/
def render (absolute : Bool) (stack : List Text) : Text :=
  let joined := slash.intercalate stack.reverse
  if absolute then '/' :: joined else if joined.isEmpty then dot else joined

/-- The segments of a name whose separators are all `/`. -/
def segments (s : Text) : List Text := s.splitOn '/'

/-- The normal form of a name. -/
def normalize (s : Text) : Text :=
  let s := s.map separator
  render (isAbsolute s) (walk (isAbsolute s) (segments s))

/-- The folder of a name, taken from its letters: what stands before the last `/`. -/
def parent (s : Text) : Text :=
  if '/' ∈ s then
    match ((s.reverse.dropWhile (· ≠ '/')).drop 1).reverse with
    | [] => slash
    | folder => folder
  else dot

theorem length_parent_lt {s : Text} (h : '/' ∈ s) (hs : s ≠ slash) :
    (parent s).length < s.length := by
  have hne : s.reverse.dropWhile (· ≠ '/') ≠ [] := by
    intro hnil
    have hany := List.any_dropWhile (l := s.reverse) (p := fun c ↦ decide (c ≠ '/'))
    rw [hnil] at hany
    simp at hany
    exact hany '/' h rfl
  have hlen : (s.reverse.dropWhile (· ≠ '/')).length ≤ s.length := by
    simpa using (List.dropWhile_sublist (p := (· ≠ '/')) (l := s.reverse)).length_le
  have hpos := List.length_pos_iff.mpr hne
  unfold parent
  rw [if_pos h]
  split
  · have : s.length ≠ 1 := by
      intro h1
      obtain ⟨c, rfl⟩ := List.length_eq_one_iff.mp h1
      simp_all [slash]
    have : 0 < s.length := List.length_pos_of_mem h
    simp [slash]
    omega
  · simp only [List.length_reverse, List.length_drop]
    omega

/-- A name read from a folder, in normal form. -/
def join (folder name : Text) : Text :=
  if isAbsolute name then normalize name else normalize (folder ++ slash ++ name)

/-- Whether a module name is meant relative to the importing file. -/
def isRelative (name : Text) : Bool :=
  name = dot || name = dotDot || ['.', '/'].isPrefixOf name || ['.', '.', '/'].isPrefixOf name

end FencedCode.Path
