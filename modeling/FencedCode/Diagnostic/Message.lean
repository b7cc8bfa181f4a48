import FencedCode.Text.Basic

/-!
# Messages with elaborations

A message may be elaborated by further messages, to any depth. Written out, each message stands
on a line of its own, in pre-order, and is indented by two blanks for each message above it.
-/

namespace FencedCode

inductive Message
  | text (text : Text)
  | chain (text : Text) (next : List Message)
deriving Inhabited

namespace Message

/-- The first line of a message. -/
def head : Message → Text
  | text t => t
  | chain t _ => t

mutual

/-- A message below `depth` others. -/
def flattenAt (newLine : Text) (depth : Nat) : Message → Text
  | text t => t
  | chain t next => t ++ flattenNext newLine (depth + 1) next

/-- Elaborations, each on a new line. -/
def flattenNext (newLine : Text) (depth : Nat) : List Message → Text
  | [] => []
  | m :: rest =>
    newLine ++ List.replicate (2 * depth) ' ' ++ flattenAt newLine depth m ++
      flattenNext newLine depth rest

end

/-- The message as one text, with `newLine` between its lines. -/
def flatten (newLine : Text) (m : Message) : Text := flattenAt newLine 0 m

end Message

end FencedCode
