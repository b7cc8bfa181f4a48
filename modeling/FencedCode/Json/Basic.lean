import FencedCode.Text.Basic

/-!
# JSON values

Objects keep their fields in the order of their keys, by code points, and hold each key once.
Numbers are exact decimals.
-/

namespace FencedCode

/-- The number `coefficient * 10 ^ exponent`. -/
structure Decimal where
  coefficient : Int
  exponent : Int
deriving DecidableEq

inductive Json
  | null
  | bool (value : Bool)
  | number (value : Decimal)
  | string (value : Text)
  | array (items : List Json)
  | object (fields : List (Text × Json))
deriving Inhabited

/-- Whether one text comes before another, by the code points of their characters. -/
def Text.before : Text → Text → Bool
  | _, [] => false
  | [], _ :: _ => true
  | c :: s, d :: t => c.toNat < d.toNat || (c = d && before s t)

namespace Json

/-- The fields of an object, in ascending order of their keys. -/
abbrev Fields := List (Text × Json)

namespace Fields

/-- The fields with `value` under `key`, at the place that the order gives it. -/
def insert (key : Text) (value : Json) : Fields → Fields
  | [] => [(key, value)]
  | (k, v) :: rest =>
    if k = key then (key, value) :: rest
    else if Text.before key k then (key, value) :: (k, v) :: rest
    else (k, v) :: insert key value rest

def get? (key : Text) : Fields → Option Json
  | [] => none
  | (k, v) :: rest => if k = key then some v else get? key rest

theorem get?_insert (key other : Text) (value : Json) (fields : Fields) :
    (insert key value fields).get? other =
      if key = other then some value else fields.get? other := by
  induction fields with
  | nil => simp [insert, get?]
  | cons field rest ih =>
    obtain ⟨k, v⟩ := field
    by_cases h : k = key
    · subst h
      by_cases ho : k = other <;> simp [insert, get?, ho]
    · by_cases hb : Text.before key k
      · simp [insert, h, hb, get?]
      · by_cases ho : k = other
        · subst ho
          simp [insert, h, hb, get?, Ne.symm h]
        · simp [insert, h, hb, get?, ho, ih]

/-- The pairs inserted in order, so the last value of a key counts. -/
def ofList (pairs : List (Text × Json)) : Fields :=
  pairs.foldl (fun fields (k, v) ↦ insert k v fields) []

/-- The fields of both, those of `stronger` where both have the key. -/
def override (fields stronger : Fields) : Fields :=
  stronger.foldl (fun fields (k, v) ↦ insert k v fields) fields

end Fields

def text? : Json → Option Text
  | string s => some s
  | _ => none

def bool? : Json → Option Bool
  | bool b => some b
  | _ => none

def items? : Json → Option (List Json)
  | array items => some items
  | _ => none

end Json

end FencedCode
