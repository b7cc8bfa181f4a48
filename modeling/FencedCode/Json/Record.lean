import FencedCode.Json.Tree

/-!
# Records in JSON

A record is written as an object with named fields, or as an array of its fields in the order of
their declaration. Unknown fields of an object are passed over and only need to follow the grammar;
a declared field may occur once. In an array a field may be left out only at the end, and only if
it has a default.
-/

namespace FencedCode.Json

/-- The number of arrays and objects that a document may nest, plus one. -/
def maxNesting : Nat := 128

/-- What a document gives for one declared field. -/
inductive Slot
  /-- The object has no such field. -/
  | absent
  /-- The array ends before the field. -/
  | cutOff
  | given (tree : Tree)

/-- The value of a field that an object holds once, or nothing when the object repeats it. -/
def slotNamed? (fields : List (Option Text × Tree)) (name : Text) : Option Slot :=
  match fields.filter fun (key, _) ↦ key = some name with
  | [] => some .absent
  | [(_, tree)] => some (.given tree)
  | _ => none

/-- The declared fields of a record, in order. -/
def Tree.slots? (names : List Text) : Tree → Option (List Slot)
  | .object fields =>
    if fields.all fun (key, _) ↦ key.isSome then names.mapM (slotNamed? fields) else none
  | .array items =>
    if items.length ≤ names.length then
      some (items.map .given ++ List.replicate (names.length - items.length) .cutOff)
    else none
  | _ => none

namespace Slot

/-- A text that must be there. -/
def text? : Slot → Option Text
  | .given (.string s) => s
  | _ => none

/-- A text that may be missing or null. -/
def optionalText? : Slot → Option (Option Text)
  | .absent => some none
  | .given .null => some none
  | .given (.string s) => s.map some
  | _ => none

/-- A text that is empty when it is missing. -/
def textOrEmpty? : Slot → Option Text
  | .absent | .cutOff => some []
  | .given (.string s) => s
  | _ => none

/-- The fields of an object that is empty when it is missing. The object stands inside a record, so
one level of nesting is used up. -/
def fieldsOrEmpty? : Slot → Option Fields
  | .absent | .cutOff => some []
  | .given (.object fields) =>
    match Tree.value? (maxNesting - 1) (.object fields) with
    | some (.object fields) => some fields
    | _ => none
  | _ => none

end Slot

end FencedCode.Json
