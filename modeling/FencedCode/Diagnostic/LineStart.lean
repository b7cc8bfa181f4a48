import FencedCode.Diagnostic.Position

/-!
# Line starts

The offsets at which the lines of a text begin are listed once. The line of an offset is looked up
in the list by halving it, and its character is counted from the beginning of that line. A step of
this fails when it asks for a line that is not listed, or cuts the text inside a character.
-/

namespace FencedCode

namespace Text

/-- The offsets behind the line feeds of a text that begins at `offset`. -/
def startsBehind (offset : Nat) : Text → List Nat
  | [] => []
  | c :: s =>
    let next := offset + c.utf8Size
    if c = '\n' then next :: startsBehind next s else startsBehind next s

/-- The offsets at which the lines of a text begin. -/
def lineStarts (s : Text) : List Nat := 0 :: startsBehind 0 s

/-- The offsets at which the characters of a text begin, when it begins at `offset`. -/
def charStarts (offset : Nat) : Text → List Nat
  | [] => []
  | c :: s => offset :: charStarts (offset + c.utf8Size) s

/-- The text behind its first bytes. There is none when they end inside a character. -/
def dropBytes? : Nat → Text → Option Text
  | 0, s => some s
  | _ + 1, [] => none
  | size + 1, c :: s =>
    if c.utf8Size ≤ size + 1 then dropBytes? (size + 1 - c.utf8Size) s else none

end Text

/-- How many items of a list satisfy `p`, when they are those in front. The item in the middle
decides which half is looked at next. -/
def bisect {α : Type} (p : α → Bool) (items : List α) : Nat :=
  match h : items.drop (items.length / 2) with
  | [] => 0
  | middle :: behind =>
    if p middle then items.length / 2 + 1 + bisect p behind
    else bisect p (items.take (items.length / 2))
termination_by items.length
decreasing_by
  · have hlength := congrArg List.length h
    rw [List.length_drop, List.length_cons] at hlength
    omega
  · have hlength := congrArg List.length h
    rw [List.length_drop, List.length_cons] at hlength
    rw [List.length_take]
    omega

namespace Position

/-- The position of an offset, from the list of line starts. An offset behind the end is taken as
the end. -/
def locate? (text : Text) (offset : Nat) : Option Position :=
  let starts := Text.lineStarts text
  let offset := min offset (Text.byteSize text)
  match bisect (fun start ↦ start ≤ offset) starts with
  | 0 => none
  | line + 1 => do
    let start ← starts[line]?
    let rest ← Text.dropBytes? start text
    return ⟨line, ((Text.charStarts start rest).takeWhile (· < offset)).length⟩

end Position

end FencedCode
