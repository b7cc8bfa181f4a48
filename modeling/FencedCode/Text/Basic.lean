/-!
# Texts

A text is the list of its Unicode scalar values. Positions reported to the outside are byte
offsets of the UTF-8 form, and `byteSize` is the measure that connects the two. The cutting
operations come with the equation that says what was cut off.
-/

namespace FencedCode

/-- A text is the sequence of its Unicode scalar values. -/
abbrev Text := List Char

namespace Text

/-- The number of bytes of the UTF-8 form. -/
def byteSize : Text → Nat
  | [] => 0
  | c :: s => c.utf8Size + byteSize s

@[simp] theorem byteSize_nil : byteSize [] = 0 := rfl

@[simp] theorem byteSize_cons (c : Char) (s : Text) :
    byteSize (c :: s) = c.utf8Size + byteSize s := rfl

@[simp] theorem byteSize_append (s t : Text) : byteSize (s ++ t) = byteSize s + byteSize t := by
  induction s with
  | nil => simp
  | cons c s ih => simp [ih, Nat.add_assoc]

/-- What follows `lead` in the text, when the text begins with it. -/
def stripStart? : Text → Text → Option Text
  | [], s => some s
  | _ :: _, [] => none
  | p :: lead, c :: s => if p = c then stripStart? lead s else none

theorem stripStart?_eq_some_iff {lead s rest : Text} :
    stripStart? lead s = some rest ↔ s = lead ++ rest := by
  induction lead generalizing s with
  | nil => simp [stripStart?]
  | cons p lead ih =>
    cases s with
    | nil => simp [stripStart?]
    | cons c s =>
      by_cases h : p = c
      · subst h
        simp [stripStart?, ih]
      · simp [stripStart?, h, Ne.symm h]

/-- What precedes `tail` in the text, when the text ends with it. -/
def stripEnd? (tail s : Text) : Option Text :=
  (stripStart? tail.reverse s.reverse).map List.reverse

theorem stripEnd?_eq_some_iff {tail s rest : Text} :
    stripEnd? tail s = some rest ↔ s = rest ++ tail := by
  simp only [stripEnd?, Option.map_eq_some_iff, stripStart?_eq_some_iff]
  constructor
  · rintro ⟨r, h, rfl⟩
    have := congrArg List.reverse h
    simpa using this
  · rintro rfl
    exact ⟨rest.reverse, by simp, by simp⟩

/-- The text without one final `c`. -/
def dropFinal (c : Char) (s : Text) : Text :=
  if s.getLast? = some c then s.dropLast else s

theorem dropFinal_append_singleton (c : Char) (s : Text) : dropFinal c (s ++ [c]) = s := by
  simp [dropFinal]

/-- The decimal digits of a number. -/
def ofNat (n : Nat) : Text := Nat.toDigits 10 n

theorem ofNat_injective : Function.Injective ofNat := by
  intro m n h
  have hdigits := congrArg (fun s ↦ Nat.ofDigitChars 10 s 0) h
  simpa [ofNat, Nat.ofDigitChars_ten_toDigits] using hdigits

theorem notMem_ofNat {c : Char} (h : c.isDigit = false) (n : Nat) : c ∉ ofNat n := by
  intro hc
  have hdigit : c.isDigit = true := Nat.isDigit_of_mem_toDigits (by decide) (by decide) hc
  rw [h] at hdigit
  exact absurd hdigit (by decide)

/-- The text with blanks in front, so that it has at least the given number of characters. -/
def padStart (width : Nat) (s : Text) : Text := List.replicate (width - s.length) ' ' ++ s

end Text

end FencedCode
