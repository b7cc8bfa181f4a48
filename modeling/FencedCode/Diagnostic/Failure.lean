import FencedCode.Diagnostic.Basic

/-!
# Failures of a document

A diagnostic belongs to a source file of a code block. A failure is the same diagnostic placed in
the document that the block comes from.
-/

namespace FencedCode

/-- Where a failure points in its document, counted from one. -/
inductive Location
  | at (line column : Nat)
  /-- A whole block, by the line of its opening fence. -/
  | block (startLine : Nat)
deriving DecidableEq

structure Failure where
  document : Text
  /-- The source file that the diagnostic was reported in. -/
  sourcePath : Text
  location : Location
  /-- The line of the source file, counted from zero. -/
  fileLine : Option Nat
  message : Text
  /-- The code of the source file. -/
  source : Text
deriving DecidableEq

namespace Failure

def isPositioned (f : Failure) : Bool :=
  match f.location with
  | .at _ _ => true
  | .block _ => false

/-- The failure on one line. -/
def shown (f : Failure) : Text :=
  match f.location with
  | .at line column =>
    f.document ++ ':' :: Text.ofNat line ++ ':' :: Text.ofNat column ++ " — ".toList ++ f.message
  | .block startLine =>
    f.document ++ ':' :: Text.ofNat startLine ++ ": ".toList ++ f.message

end Failure

end FencedCode
