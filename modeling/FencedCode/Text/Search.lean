import FencedCode.Text.Basic

/-!
# Searching and replacing

The occurrences of a pattern are found from left to right and do not overlap. `breakWhere` cuts
a text at its first suffix with a given property, and nothing is lost by the cut.
-/

namespace FencedCode.Text

/-- The text before its first suffix that satisfies `p`, and that suffix. -/
def breakWhere (p : Text → Bool) : Text → Option (Text × Text)
  | [] => if p [] then some ([], []) else none
  | c :: s =>
    if p (c :: s) then some ([], c :: s)
    else (breakWhere p s).map fun (before, after) ↦ (c :: before, after)

theorem breakWhere_append {p : Text → Bool} {s before after : Text}
    (h : breakWhere p s = some (before, after)) : s = before ++ after := by
  induction s generalizing before with
  | nil =>
    simp only [breakWhere] at h
    split at h <;> simp_all
  | cons c s ih =>
    simp only [breakWhere] at h
    split at h
    · simp_all
    · simp only [Option.map_eq_some_iff, Prod.mk.injEq, Prod.exists] at h
      obtain ⟨b, a, hb, rfl, rfl⟩ := h
      simp [ih hb]

theorem breakWhere_holds {p : Text → Bool} {s before after : Text}
    (h : breakWhere p s = some (before, after)) : p after = true := by
  induction s generalizing before with
  | nil =>
    simp only [breakWhere] at h
    split at h <;> simp_all
  | cons c s ih =>
    simp only [breakWhere] at h
    split at h
    · simp_all
    · simp only [Option.map_eq_some_iff, Prod.mk.injEq, Prod.exists] at h
      obtain ⟨b, a, hb, rfl, rfl⟩ := h
      exact ih hb

/-- The text before and after the first occurrence of a character. -/
def splitFirst (c : Char) (s : Text) : Option (Text × Text) :=
  if c ∈ s then some (s.takeWhile (· ≠ c), (s.dropWhile (· ≠ c)).drop 1) else none

/-- Whether `pattern` occurs in the text. -/
def hasInfix (pattern s : Text) : Bool := (breakWhere pattern.isPrefixOf s).isSome

/-- Each occurrence of `pattern` as the text before it and the text after it. -/
def occurrences (pattern s : Text) : List (Text × Text) :=
  go [] 0 s
where
  go (seen : Text) : Nat → Text → List (Text × Text)
    | _, [] => []
    | skip + 1, c :: s => go (c :: seen) skip s
    | 0, c :: s =>
      if pattern.isPrefixOf (c :: s) then
        (seen.reverse, (c :: s).drop pattern.length) :: go (c :: seen) (pattern.length - 1) s
      else go (c :: seen) 0 s

/-- The text with every occurrence of a nonempty `pattern` replaced. The first argument counts the
characters that still belong to the occurrence replaced last. -/
def replaceFrom (pattern replacement : Text) : Nat → Text → Text
  | _, [] => []
  | skip + 1, _ :: s => replaceFrom pattern replacement skip s
  | 0, c :: s =>
    if pattern.isPrefixOf (c :: s) then
      replacement ++ replaceFrom pattern replacement (pattern.length - 1) s
    else c :: replaceFrom pattern replacement 0 s

/-- The text with every occurrence of `pattern` replaced. The empty pattern occurs before every
character and at the end. -/
def replaceAll (pattern replacement s : Text) : Text :=
  if pattern.isEmpty then replacement ++ s.flatMap fun c ↦ c :: replacement
  else replaceFrom pattern replacement 0 s

/-- The text with the first `c` replaced. -/
def replaceFirst (c : Char) (replacement s : Text) : Text :=
  match splitFirst c s with
  | some (before, after) => before ++ replacement ++ after
  | none => s

end FencedCode.Text
