import FencedCode.Json.Token

/-!
# JSON documents

A document is first read as a tree that follows the grammar alone. A value is then taken from the
tree under the rules for values: nesting is bounded, numbers must be within the range of doubles,
and strings must be texts. The two steps are apart because a field that nobody reads has to follow
the grammar and nothing else.
-/

namespace FencedCode.Json

inductive Tree
  | null
  | bool (value : Bool)
  | number (numeral : Numeral)
  | string (text : Option Text)
  | array (items : List Tree)
  | object (fields : List (Option Text × Tree))

mutual

/-- The value at the front of the tokens. -/
def readValue : Nat → List Token → Option (Tree × List Token)
  | 0, _ => none
  | fuel + 1, tokens =>
    match tokens with
    | .null :: rest => some (.null, rest)
    | .bool b :: rest => some (.bool b, rest)
    | .number n :: rest => some (.number n, rest)
    | .string s :: rest => some (.string s, rest)
    | .openBracket :: .closeBracket :: rest => some (.array [], rest)
    | .openBracket :: rest => (readItems fuel rest).map fun (items, rest) ↦ (.array items, rest)
    | .openBrace :: .closeBrace :: rest => some (.object [], rest)
    | .openBrace :: rest => (readFields fuel rest).map fun (fields, rest) ↦ (.object fields, rest)
    | _ => none

/-- The items up to the closing bracket, at least one. -/
def readItems : Nat → List Token → Option (List Tree × List Token)
  | 0, _ => none
  | fuel + 1, tokens => do
    let (item, rest) ← readValue fuel tokens
    match rest with
    | .comma :: rest => do
      let (items, rest) ← readItems fuel rest
      return (item :: items, rest)
    | .closeBracket :: rest => return ([item], rest)
    | _ => none

/-- The fields up to the closing brace, at least one. -/
def readFields : Nat → List Token → Option (List (Option Text × Tree) × List Token)
  | 0, _ => none
  | fuel + 1, tokens =>
    match tokens with
    | .string key :: .colon :: rest => do
      let (value, rest) ← readValue fuel rest
      match rest with
      | .comma :: rest => do
        let (fields, rest) ← readFields fuel rest
        return ((key, value) :: fields, rest)
      | .closeBrace :: rest => return ([(key, value)], rest)
      | _ => none
    | _ => none

end

/-- The tree of a document. A step downwards or onwards takes a token or follows one that did, so
twice the number of tokens bounds the steps. -/
def Tree.ofText? (s : Text) : Option Tree := do
  let tokens ← tokens? s
  match ← readValue (2 * tokens.length + 1) tokens with
  | (tree, []) => some tree
  | _ => none

mutual

/-- The value of a tree, when fewer than `depth` arrays and objects are nested in it. -/
def Tree.value? (depth : Nat) : Tree → Option Json
  | .null => some .null
  | .bool b => some (.bool b)
  | .number n => n.value?.map .number
  | .string s => s.map .string
  | .array items => if depth ≤ 1 then none else (itemValues? (depth - 1) items).map .array
  | .object fields =>
    if depth ≤ 1 then none
    else (fieldValues? (depth - 1) fields).map fun pairs ↦ .object (Fields.ofList pairs)

def itemValues? (depth : Nat) : List Tree → Option (List Json)
  | [] => some []
  | item :: rest => do
    return (← item.value? depth) :: (← itemValues? depth rest)

def fieldValues? (depth : Nat) : List (Option Text × Tree) → Option (List (Text × Json))
  | [] => some []
  | (key, value) :: rest => do
    return (← key, ← value.value? depth) :: (← fieldValues? depth rest)

end

end FencedCode.Json
