import FencedCode.Json.Basic

/-!
# Written numbers

A document writes a number with a whole part, a fraction and an exponent. The number must be within
the range of doubles, as a quick reader judges it: the leading digits are gathered in a word of 64
bits, the word and a power of ten are each rounded to a double, and so is their product. The limit
may therefore differ in the last places from the one of a reader that rounds once.
-/

namespace FencedCode.Json

/-- The number `whole.fraction * 10 ^ exponent`, by its digits. -/
structure Numeral where
  negative : Bool
  whole : Text
  fraction : Text
  exponent : Int

/-- The value of a decimal digit. -/
def digitValue (c : Char) : Nat := c.toNat - '0'.toNat

/-- The value of decimal digits. -/
def digitsValue (digits : Text) : Nat := digits.foldl (fun n c ↦ n * 10 + digitValue c) 0

/-- The number of values of a word of 64 bits. -/
def wordSize : Nat := 18446744073709551616

/-- The word `n` with digits appended while they fit, and the number of digits left out. After the
first that does not fit, all are left out. -/
def appendDigits (n : Nat) : Text → Nat × Nat
  | [] => (n, 0)
  | c :: digits =>
    if n * 10 + digitValue c < wordSize then appendDigits (n * 10 + digitValue c) digits
    else (n, digits.length + 1)

theorem appendDigits_lt {n : Nat} (digits : Text) (h : n < wordSize) :
    (appendDigits n digits).1 < wordSize := by
  fun_induction appendDigits n digits with
  | case1 => exact h
  | case2 _ _ _ hfits ih => exact ih hfits
  | case3 => exact h

/-- The nearest number with at most 53 significant bits. Of two that are equally near, it is the one
whose last bit is zero. -/
def nearestDouble (n : Nat) : Nat :=
  let unit := Nat.pow 2 (n.log2 - 52)
  let count := n / unit
  let rest := 2 * (n % unit)
  if rest < unit ∨ rest = unit ∧ count % 2 = 0 then count * unit else (count + 1) * unit

/-- The least number that is rounded beyond all doubles. -/
def doubleLimit : Nat := Nat.pow 2 1024 - Nat.pow 2 970

namespace Numeral

/-- The leading digits as a word, and the power of ten that belongs to it. A digit that is left out
counts for the power in the whole part and for nothing in the fraction. -/
def leading (n : Numeral) : Nat × Int :=
  let (word, leftOut) := appendDigits 0 n.whole
  let (word, ignored) := appendDigits word n.fraction
  (word, n.exponent + leftOut + ignored - n.fraction.length)

/-- Whether the number is within the range of doubles, which reaches up to the power 308 of ten. -/
def isFinite (n : Numeral) : Bool :=
  let (word, power) := n.leading
  if word = 0 ∨ power < 0 then true
  else if 308 < power then false
  else nearestDouble word * nearestDouble (Nat.pow 10 power.toNat) < doubleLimit

/-- The exact value, or zero where it is less than the least double by far. -/
def decimal (n : Numeral) : Decimal :=
  let coefficient := digitsValue (n.whole ++ n.fraction)
  let exponent := n.exponent - n.fraction.length
  if coefficient = 0 ∨ (Nat.toDigits 10 coefficient).length + exponent < -323 then ⟨0, 0⟩
  else ⟨if n.negative then -coefficient else coefficient, exponent⟩

/-- The value of a number within the range of doubles. -/
def value? (n : Numeral) : Option Decimal := if n.isFinite then some n.decimal else none

end Numeral

end FencedCode.Json
