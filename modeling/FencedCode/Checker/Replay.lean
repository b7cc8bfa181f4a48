import FencedCode.Checker.Basic

/-!
# The replaying checker

A checker that gives prepared answers and keeps a record of its calls and of what it learned from
the workspace. It shows what a request asks of a checker, and in which order.
-/

namespace FencedCode.ReplayChecker

/-- A prepared diagnostic, for one file or for all. -/
structure Prepared where
  only : Option Text
  diagnostic : RawDiagnostic

/-- The prepared answers. -/
structure Script where
  /-- The emitted texts of files; any other file is emitted as it is. -/
  emitted : Table Text (List Text)
  options : List Prepared
  syntactic : List Prepared
  semantic : List Prepared
  /-- The module names to resolve for a file. -/
  imports : Table Text (List Text)

/-- A call, or an answer of the workspace. -/
inductive Event
  | emit (file version : Text) (text : Option Text)
  | options (scripts : List Text)
  | syntactic (file : Text)
  | semantic (file : Text)
  | resolved (modules : List (Option ResolvedModule))

structure State where
  script : Script
  /-- The events so far, in order. -/
  events : List Event

def record (event : Event) : CheckM State Unit :=
  modify fun s ↦ { s with events := s.events ++ [event] }

/-- The prepared diagnostics of a file. -/
def preparedFor (file : Text) (prepared : List Prepared) : List RawDiagnostic :=
  (prepared.filter fun p ↦ p.only.all (· = file)).map (·.diagnostic)

def emit (file : Text) : CheckM State (List EmittedFile) := do
  let version ← CheckM.version file
  let text ← CheckM.read file
  record (.emit file version text)
  let texts := ((← get).script.emitted.get? file).getD text.toList
  return texts.map fun text ↦ ⟨file, text⟩

def optionDiagnostics : CheckM State (List RawDiagnostic) := do
  record (.options (← CheckM.scripts))
  return preparedFor [] (← get).script.options

def syntaxDiagnostics (file : Text) : CheckM State (List RawDiagnostic) := do
  record (.syntactic file)
  return preparedFor file (← get).script.syntactic

def typeDiagnostics (file : Text) : CheckM State (List RawDiagnostic) := do
  record (.semantic file)
  let modules ← CheckM.resolve file (((← get).script.imports.get? file).getD [])
  record (.resolved modules)
  return preparedFor file (← get).script.semantic

end ReplayChecker

def replayChecker : Checker ReplayChecker.State where
  emit := ReplayChecker.emit
  optionDiagnostics := ReplayChecker.optionDiagnostics
  syntaxDiagnostics := ReplayChecker.syntaxDiagnostics
  typeDiagnostics := ReplayChecker.typeDiagnostics

end FencedCode
