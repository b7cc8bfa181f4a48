import FencedCode.Path.Normal
import FencedCode.Table

/-!
# Overlays

An overlay holds files that exist on no disk, by their normalized names. Each file has a version
that starts at one and grows by one whenever a write changes the text.
-/

namespace FencedCode

structure OverlayFile where
  text : Text
  version : Nat
deriving DecidableEq

structure Overlay where
  files : Table Text OverlayFile

namespace Overlay

def empty : Overlay := ⟨Table.empty⟩

def get? (o : Overlay) (path : Text) : Option OverlayFile := o.files.get? (Path.normalize path)

def contains (o : Overlay) (path : Text) : Bool := (o.get? path).isSome

def size (o : Overlay) : Nat := o.files.size

/-- A file after a write. -/
def updated (old : Option OverlayFile) (text : Text) : OverlayFile :=
  match old with
  | none => ⟨text, 1⟩
  | some file => if file.text = text then file else ⟨text, file.version + 1⟩

def write (o : Overlay) (path text : Text) : Overlay :=
  ⟨o.files.insert (Path.normalize path) (updated (o.get? path) text)⟩

theorem get?_write (o : Overlay) (path other text : Text) :
    (o.write path text).get? other =
      if Path.normalize path = Path.normalize other then some (updated (o.get? path) text)
      else o.get? other := by
  simp [get?, write]

@[simp] theorem text_updated (old : Option OverlayFile) (text : Text) :
    (updated old text).text = text := by
  unfold updated
  split
  · rfl
  · split <;> simp_all

theorem keys_write (o : Overlay) (path text : Text) :
    (o.write path text).files.keys =
      if Path.normalize path ∈ o.files.keys then o.files.keys
      else o.files.keys ++ [Path.normalize path] := by
  simp [write, Table.keys_insert]

/-- The version of a file after it was last written. -/
def version (o : Overlay) (path : Text) : Nat := ((o.get? path).map (·.version)).getD 0

end Overlay

end FencedCode
