import FencedCode.Diagnostic.Message
import FencedCode.Diagnostic.Position

/-!
# Diagnostics

A checker reports a raw diagnostic: a message, and where it applies a file with a byte offset. As
long as the text is at hand the offset is turned into a line and a character, and the message is
written out.
-/

namespace FencedCode

/-- A diagnostic as a checker reports it. -/
structure RawDiagnostic where
  file : Option Text
  /-- A byte offset into the file. -/
  start : Option Nat
  length : Nat
  code : Nat
  message : Message

/-- A diagnostic of one source file. -/
inductive Diagnostic
  | positioned (position : Position) (message : Text)
  | positionless (message : Text)
deriving DecidableEq

namespace Diagnostic

/-- A raw diagnostic read against the text that it was reported on. -/
def ofRaw (raw : RawDiagnostic) (text : Text) : Diagnostic :=
  let message := raw.message.flatten ['\n']
  match raw.file, raw.start with
  | some _, some start => positioned (Position.ofOffset text start) message
  | _, _ => positionless message

/-- A raw diagnostic whose text is not at hand. -/
def unplaced (raw : RawDiagnostic) : Diagnostic := positionless (raw.message.flatten ['\n'])

def message : Diagnostic → Text
  | positioned _ m => m
  | positionless m => m

def position? : Diagnostic → Option Position
  | positioned p _ => some p
  | positionless _ => none

/-- The diagnostic as a line of a report, with line and character counted from one. -/
def shown : Diagnostic → Text
  | positioned p m =>
    Text.ofNat (p.line + 1) ++ ':' :: Text.ofNat (p.character + 1) ++ ": ".toList ++ m
  | positionless m => m

end Diagnostic

/-- How many diagnostics there are of each kind. -/
structure DiagnosticCount where
  positioned : Nat
  positionless : Nat
deriving DecidableEq

namespace DiagnosticCount

def ofList (diagnostics : List Diagnostic) : DiagnosticCount where
  positioned := diagnostics.countP fun d ↦ d.position?.isSome
  positionless := diagnostics.countP fun d ↦ d.position?.isNone

def total (n : DiagnosticCount) : Nat := n.positioned + n.positionless

def isEmpty (n : DiagnosticCount) : Bool := n.total = 0

theorem total_ofList (diagnostics : List Diagnostic) :
    (ofList diagnostics).total = diagnostics.length := by
  induction diagnostics with
  | nil => rfl
  | cons d rest ih =>
    simp only [ofList, total, List.countP_cons, List.length_cons] at ih ⊢
    cases d.position? <;> simp <;> omega

/-- The count in words. -/
def shown (n : DiagnosticCount) : Text :=
  match n.total with
  | 0 => "no diagnostics".toList
  | 1 => "1 error".toList
  | total => Text.ofNat total ++ " errors".toList

end DiagnosticCount

end FencedCode
