import FencedCode.Text.Alphanumeric
import FencedCode.Text.Blank
import FencedCode.Text.Rows
import FencedCode.Text.Search
import FencedCode.Table

/-!
# Code read by its lines

A few forms of code are recognized by the look of a single line: imports, declarations of functions
with the type of their first parameter, declarations of texts that hold a number, and calls with
a number. Columns are byte offsets into the line.
-/

namespace FencedCode.LineSyntax

/-- A line that imports names from a module. -/
structure ImportLine where
  names : List Text
  module : Text
  /-- Where the module name begins. -/
  column : Nat
deriving DecidableEq

def isQuote (c : Char) : Bool := c = '\'' || c = '"'

/-- The names between the first pair of braces. -/
def importedNames (line : Text) : List Text :=
  match Text.splitFirst '{' line, Text.splitFirst '}' line with
  | some (before, _), some (inside, _) =>
    if before.length < inside.length then
      (((inside.drop (before.length + 1)).splitOn ',').map Text.trim).filter fun name ↦
        !name.isEmpty
    else []
  | _, _ => []

/-- An import names its module between two quotes of one kind. -/
def importLine? (line : Text) : Option ImportLine :=
  if "import ".toList.isPrefixOf (Text.trimStart line) then
    match line.dropWhile fun c ↦ !isQuote c with
    | [] => none
    | quote :: rest =>
      (Text.splitFirst quote rest).map fun (module, _) ↦
        ⟨importedNames line, module, Text.byteSize (line.takeWhile fun c ↦ !isQuote c) + 1⟩
  else none

/-- The types of first parameters by the names of functions. -/
abbrev Signatures := Table Text Text

/-- A declaration, from the text behind its keyword. -/
def signature? (rest : Text) : Option (Text × Text) := do
  let (name, parameters) ← Text.splitFirst '(' rest
  let (_, type) ← Text.splitFirst ':' (parameters.takeWhile fun c ↦ c ≠ ',' ∧ c ≠ ')')
  return (Text.trim name, Text.trim type)

def functionKeyword : Text := "function ".toList

/-- All declarations of a text. -/
def signatures (text : Text) : Signatures :=
  Table.ofList ((Text.occurrences functionKeyword text).filterMap fun (_, rest) ↦ signature? rest)

/-- A text without a keyword in front, with the column moved behind it. -/
def dropKeyword (state : Nat × Text) (keyword : Text) : Nat × Text :=
  match Text.stripStart? keyword state.2 with
  | some rest => (state.1 + Text.byteSize keyword, rest)
  | none => state

/-- A text that is a number and nothing else. -/
def isNumeral (s : Text) : Bool := !s.isEmpty && s.all Char.isDigit

/-- The column of a variable that is declared as a text and holds a number. -/
def numberInText? (line : Text) : Option Nat := do
  let code := Text.trimStart line
  let indent := Text.byteSize line - Text.byteSize code
  let keywords := ["export ".toList, "let ".toList, "const ".toList]
  let (column, declaration) := keywords.foldl dropKeyword (indent, code)
  if column = indent then none
  else
    let (name, tail) ← Text.splitFirst ':' declaration
    let afterType ← Text.stripStart? "string".toList (Text.trimStart tail)
    let afterEquals ← Text.stripStart? ['='] (Text.trimStart afterType)
    let value := ((Text.trim afterEquals).reverse.dropWhile (· = ';')).reverse
    if isNumeral value && !(Text.trim name).isEmpty then some column else none

/-- Whether a call cannot begin behind a character, because a longer name ends there. -/
def continuesName (c : Char) : Bool := Text.isAlphanumeric c || c = '_' || c = '.'

/-- The column and the size of the number in a call, from the text before the call, the opening of
the call and the text behind it. -/
def numberArgument? (call before after : Text) : Option (Nat × Nat) :=
  if before.getLast?.any continuesName then none
  else
    match Text.splitFirst ')' after with
    | some (argument, _) =>
      if isNumeral argument then
        some (Text.byteSize before + Text.byteSize call, Text.byteSize argument)
      else none
    | none => none

/-- The numbers that a line passes to one function. -/
def numbersPassedTo (line name : Text) : List (Nat × Nat) :=
  let call := name ++ ['(']
  (Text.occurrences call line).filterMap fun (before, after) ↦ numberArgument? call before after

/-- Whether one place is not behind another; of two at one column the shorter comes first. -/
def notBehind (a b : Nat × Nat) : Bool := a.1 < b.1 || (a.1 = b.1 && a.2 ≤ b.2)

/-- Places in order with one more at its place. -/
def insertPlace (place : Nat × Nat) : List (Nat × Nat) → List (Nat × Nat)
  | [] => [place]
  | other :: rest =>
    if notBehind place other then place :: other :: rest else other :: insertPlace place rest

/-- The numbers that a line passes where a text is expected, from left to right. -/
def numbersForTexts (line : Text) (signatures : Signatures) : List (Nat × Nat) :=
  let takingText := signatures.entries.filter fun (_, type) ↦ type = "string".toList
  (takingText.flatMap fun (name, _) ↦ numbersPassedTo line name).foldr insertPlace []

/-- Parentheses without a partner: the closing ones, and then the last that is open at the end. The
offsets of open ones are a stack. -/
def unpaired (offset : Nat) (opened : List Nat) : Text → List Nat × Option Nat
  | [] => ([], opened.head?)
  | c :: s =>
    let next := offset + c.utf8Size
    if c = '(' then unpaired next (offset :: opened) s
    else if c = ')' then
      match opened with
      | _ :: rest => unpaired next rest s
      | [] =>
        let (closing, last) := unpaired next [] s
        (offset :: closing, last)
    else unpaired next opened s

/-- The annotations that are no part of emitted code. -/
def annotations : List Text :=
  [": string".toList, ":string".toList, ": number".toList, ":number".toList]

/-- A line without annotations, which are taken out one kind after the other. -/
def withoutAnnotations (line : Text) : Text :=
  annotations.foldl (fun line annotation ↦ Text.replaceAll annotation [] line) line

/-- The emitted form of a text: blank lines are dropped and annotations removed. -/
def emitted (text : Text) : Text :=
  ((Text.rows text).filter fun row ↦ !Text.allBlank row).flatMap withoutAnnotations

end FencedCode.LineSyntax
