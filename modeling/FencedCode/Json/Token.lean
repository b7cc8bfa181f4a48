import FencedCode.Json.Numeral

/-!
# Tokens of JSON

A document is read as a list of tokens. A string token may hold half of a surrogate pair, which no
text can; such a string is a token without a text, and only a reader that needs the text fails.
-/

namespace FencedCode.Json

inductive Token
  | openBrace
  | closeBrace
  | openBracket
  | closeBracket
  | colon
  | comma
  | null
  | bool (value : Bool)
  | number (numeral : Numeral)
  | string (text : Option Text)

/-- The value of a hexadecimal digit. -/
def hexValue? (c : Char) : Option Nat :=
  if c.isDigit then some (digitValue c)
  else if 'a' ≤ c ∧ c ≤ 'f' then some (c.toNat - 'a'.toNat + 10)
  else if 'A' ≤ c ∧ c ≤ 'F' then some (c.toNat - 'A'.toNat + 10)
  else none

/-- The code unit that four hexadecimal digits write. -/
def codeUnit? (a b c d : Char) : Option Nat := do
  return (((← hexValue? a) * 16 + (← hexValue? b)) * 16 + (← hexValue? c)) * 16 + (← hexValue? d)

/-- The character of an escape of one letter. -/
def escaped? : Char → Option Char
  | '"' => some '"'
  | '\\' => some '\\'
  | '/' => some '/'
  | 'b' => some '\x08'
  | 'f' => some '\x0c'
  | 'n' => some '\n'
  | 'r' => some '\r'
  | 't' => some '\t'
  | _ => none

/-- The code points of a string after its opening quote, and the text after its closing quote.
Surrogates stay apart. -/
def scanString : Text → Option (List Nat × Text)
  | [] => none
  | '"' :: s => some ([], s)
  | '\\' :: 'u' :: a :: b :: c :: d :: s => do
    let unit ← codeUnit? a b c d
    let (units, rest) ← scanString s
    return (unit :: units, rest)
  | '\\' :: e :: s => do
    let c ← escaped? e
    let (units, rest) ← scanString s
    return (c.toNat :: units, rest)
  | c :: s =>
    if c.toNat < 0x20 || c = '\\' then none
    else (scanString s).map fun (units, rest) ↦ (c.toNat :: units, rest)

def isLead (n : Nat) : Bool := 0xD800 ≤ n && n ≤ 0xDBFF

def isTrail (n : Nat) : Bool := 0xDC00 ≤ n && n ≤ 0xDFFF

/-- The text of the code points, with surrogate pairs joined. -/
def ofUnits? : List Nat → Option Text
  | [] => some []
  | n :: rest =>
    if isLead n then
      match rest with
      | m :: rest =>
        if isTrail m then
          (ofUnits? rest).map (Char.ofNat (0x10000 + (n - 0xD800) * 0x400 + (m - 0xDC00)) :: ·)
        else none
      | [] => none
    else if isTrail n then none
    else (ofUnits? rest).map (Char.ofNat n :: ·)

/-- The digits in front of a text, at least one. -/
def scanDigits (s : Text) : Option (Text × Text) :=
  match s.takeWhile Char.isDigit with
  | [] => none
  | digits => some (digits, s.dropWhile Char.isDigit)

/-- An integer part has no zero in front of other digits. -/
def scanWhole (s : Text) : Option (Text × Text) :=
  match s with
  | '0' :: rest => some (['0'], rest)
  | _ => scanDigits s

def scanFraction (s : Text) : Option (Text × Text) :=
  match s with
  | '.' :: rest => scanDigits rest
  | _ => some ([], s)

def scanExponent (s : Text) : Option (Int × Text) :=
  let value (negative : Bool) (rest : Text) : Option (Int × Text) := do
    let (digits, rest) ← scanDigits rest
    let n : Int := digitsValue digits
    return (if negative then -n else n, rest)
  match s with
  | e :: rest =>
    if e = 'e' || e = 'E' then
      match rest with
      | '-' :: rest => value true rest
      | '+' :: rest => value false rest
      | _ => value false rest
    else some (0, s)
  | [] => some (0, s)

def scanNumber (s : Text) : Option (Numeral × Text) := do
  let (negative, s) := match s with
    | '-' :: rest => (true, rest)
    | _ => (false, s)
  let (whole, s) ← scanWhole s
  let (fraction, s) ← scanFraction s
  let (exponent, s) ← scanExponent s
  return ({ negative, whole, fraction, exponent }, s)

/-- The token at the front of a text. -/
def nextToken? (s : Text) : Option (Token × Text) :=
  match s with
  | '{' :: s => some (.openBrace, s)
  | '}' :: s => some (.closeBrace, s)
  | '[' :: s => some (.openBracket, s)
  | ']' :: s => some (.closeBracket, s)
  | ':' :: s => some (.colon, s)
  | ',' :: s => some (.comma, s)
  | '"' :: s => (scanString s).map fun (units, rest) ↦ (.string (ofUnits? units), rest)
  | 'n' :: 'u' :: 'l' :: 'l' :: s => some (.null, s)
  | 't' :: 'r' :: 'u' :: 'e' :: s => some (.bool true, s)
  | 'f' :: 'a' :: 'l' :: 's' :: 'e' :: s => some (.bool false, s)
  | _ => (scanNumber s).map fun (n, rest) ↦ (.number n, rest)

/-- Space, tab, line feed and carriage return stand between tokens. -/
def isGap (c : Char) : Bool := c = ' ' || c = '\t' || c = '\n' || c = '\r'

/-- The tokens of a text. A token takes at least one character, so the length of the text bounds
the number of steps. -/
def tokensWith : Nat → Text → Option (List Token)
  | fuel, s =>
    match s.dropWhile isGap with
    | [] => some []
    | rest =>
      match fuel with
      | 0 => none
      | fuel + 1 => do
        let (token, rest) ← nextToken? rest
        return token :: (← tokensWith fuel rest)

def tokens? (s : Text) : Option (List Token) := tokensWith s.length s

end FencedCode.Json
