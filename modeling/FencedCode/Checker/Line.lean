import FencedCode.Checker.Basic
import FencedCode.Checker.Line.Syntax
import FencedCode.Source.Variant

/-!
# The line checker

A small incremental checker that reads code by its lines. What it found out about a file is kept
together with the versions of the file and of the files it imports, and is used again as long as
these versions stay.
-/

namespace FencedCode.LineChecker

open LineSyntax

/-- What was found out about a file. -/
structure Analysis where
  /-- The versions of the file and of its imports at that time. -/
  versions : List (Text × Text)
  diagnostics : List RawDiagnostic

structure State where
  kept : Table Text Analysis
  /-- How many analyses were begun. -/
  analyses : Nat

def State.empty : State := ⟨Table.empty, 0⟩

def found (file : Text) (start length code : Nat) (message : Text) : RawDiagnostic :=
  ⟨some file, some start, length, code, .text message⟩

def missingModule (file : Text) (offset : Nat) (line : ImportLine) : RawDiagnostic :=
  found file (offset + line.column) (Text.byteSize line.module) 2307
    ("Cannot find module '".toList ++ line.module ++
      "' or its corresponding type declarations.".toList)

def numberForText (file : Text) (start : Nat) : RawDiagnostic :=
  found file start 1 2322 "Type 'number' is not assignable to type 'string'.".toList

def numberPassed (file : Text) (start length : Nat) : RawDiagnostic :=
  found file start length 2345
    "Argument of type 'number' is not assignable to parameter of type 'string'.".toList

/-- The part of an analysis that depends on imports. -/
structure Imported where
  versions : List (Text × Text)
  diagnostics : List RawDiagnostic
  signatures : Signatures

/-- The signatures with those of the imported names. -/
def withNames (own imported : Signatures) (names : List Text) : Signatures :=
  names.foldl (fun own name ↦
    match imported.get? name with
    | some type => own.insert name type
    | none => own) own

/-- One import more. -/
def addImport (file : Text) (offset : Nat) (line : ImportLine) (sofar : Imported) :
    CheckM State Imported := do
  match (← CheckM.resolve file [line.module]).head?.join with
  | some target =>
    let version ← CheckM.version target.file
    let text ← CheckM.read target.file
    return { sofar with
      versions := sofar.versions ++ [(target.file, version)]
      signatures := withNames sofar.signatures (signatures (text.getD [])) line.names }
  | none =>
    return { sofar with diagnostics := sofar.diagnostics ++ [missingModule file offset line] }

/-- The imports of rows that begin at `offset`. -/
def addImports (file : Text) : Nat → List Text → Imported → CheckM State Imported
  | _, [], sofar => return sofar
  | offset, row :: rest, sofar => do
    let next ←
      match importLine? row with
      | some line => addImport file offset line sofar
      | none => pure sofar
    addImports file (offset + Text.byteSize row) rest next

/-- What is wrong on one row that begins at `offset`. -/
def rowDiagnostics (file : Text) (signatures : Signatures) (offset : Nat) (row : Text) :
    List RawDiagnostic :=
  let declared := (numberInText? row).toList.map fun column ↦ numberForText file (offset + column)
  let passed :=
    if Text.hasInfix functionKeyword row ∨ "import".toList.isPrefixOf (Text.trimStart row) then []
    else (numbersForTexts row signatures).map fun (column, size) ↦
      numberPassed file (offset + column) size
  declared ++ passed

def rowsDiagnostics (file : Text) (signatures : Signatures) :
    Nat → List Text → List RawDiagnostic
  | _, [] => []
  | offset, row :: rest =>
    rowDiagnostics file signatures offset row ++
      rowsDiagnostics file signatures (offset + Text.byteSize row) rest

/-- A new analysis of a file. -/
def analyze (file : Text) : CheckM State Analysis := do
  modify fun s ↦ { s with analyses := s.analyses + 1 }
  let text := (← CheckM.read file).getD []
  let version ← CheckM.version file
  let rows := Text.rows text
  let imported ← addImports file 0 rows ⟨[(file, version)], [], signatures text⟩
  return ⟨imported.versions,
    imported.diagnostics ++ rowsDiagnostics file imported.signatures 0 rows⟩

/-- Whether all files have the given versions. -/
def areCurrent : List (Text × Text) → CheckM State Bool
  | [] => return true
  | (file, version) :: rest => do
    if (← CheckM.version file) = version then areCurrent rest else return false

/-- The diagnostics of a file, from a kept analysis where it still holds. -/
def typeDiagnostics (file : Text) : CheckM State (List RawDiagnostic) := do
  match (← get).kept.get? file with
  | some analysis =>
    if ← areCurrent analysis.versions then return analysis.diagnostics
    else renew
  | none => renew
where
  renew : CheckM State (List RawDiagnostic) := do
    let analysis ← analyze file
    modify fun s ↦ { s with kept := s.kept.insert file analysis }
    return analysis.diagnostics

def emit (file : Text) : CheckM State (List EmittedFile) := do
  match ← CheckM.read file with
  | some text => return [⟨emittedName file, emitted text⟩]
  | none => return []

/-- An option that is known to be wrong. -/
def bogusOption : Text := "bogusOption".toList

/-- What is wrong with options. -/
def optionFindings (options : CompilerOptions) : List RawDiagnostic :=
  (options.values.filter fun (key, _) ↦ key = bogusOption).map fun (key, _) ↦
    ⟨none, none, 0, 5023, .text ("Unknown compiler option '".toList ++ key ++ "'.".toList)⟩

def optionDiagnostics : CheckM State (List RawDiagnostic) :=
  return optionFindings (← CheckM.options)

/-- The parentheses of a text without a partner. -/
def parenthesisFindings (file text : Text) : List RawDiagnostic :=
  let (closing, last) := unpaired 0 [] text
  (closing.map fun start ↦
      found file start 1 1128 "Declaration or statement expected.".toList) ++
    last.toList.map fun start ↦ found file start 1 1005 "')' expected.".toList

def syntaxDiagnostics (file : Text) : CheckM State (List RawDiagnostic) :=
  return parenthesisFindings file ((← CheckM.read file).getD [])

end LineChecker

def lineChecker : Checker LineChecker.State where
  emit := LineChecker.emit
  optionDiagnostics := LineChecker.optionDiagnostics
  syntaxDiagnostics := LineChecker.syntaxDiagnostics
  typeDiagnostics := LineChecker.typeDiagnostics

end FencedCode
