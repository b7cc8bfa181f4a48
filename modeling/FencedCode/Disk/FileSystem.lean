import FencedCode.Disk.Timestamp
import FencedCode.Table

/-!
# File systems

What the library asks of a disk is a record of answers at one moment. Operations that look at the
disk take such a record, so that the disk may be another one at every call.
-/

namespace FencedCode

/-- A disk as compilation sees it, by normalized names. -/
structure FileSystem where
  fileExists : Text → Bool
  folderExists : Text → Bool
  /-- The text of a file, or nothing when it cannot be read. -/
  readText : Text → Option Text
  /-- The time of the last change, where it is known. -/
  modified : Text → Option Timestamp

/-- Why a file could not be read. -/
inductive ReadFault
  | missing
  | unreadable
deriving DecidableEq

/-- A disk as the loading of configuration files sees it, by paths of the operating system. -/
structure ConfigSource where
  readText : Text → Except ReadFault Text
  isFile : Text → Bool

namespace FileSystem

/-- The version of a file whose time of change is unknown. It never changes. -/
def unknownVersion : Text := "unknown, will not update without restart".toList

/-- The version of a file on disk: it is taken to change with the time of the last change. -/
def version (fs : FileSystem) (path : Text) : Text :=
  match fs.modified path with
  | some time => time.rfc3339
  | none => unknownVersion

end FileSystem

/-- The texts read from a disk so far. A text that was read once is read again without the disk,
and a failed read is not kept. -/
structure ReadCache where
  texts : Table Text Text

namespace ReadCache

def empty : ReadCache := ⟨Table.empty⟩

/-- The text of a file, through the cache. -/
def read (fs : FileSystem) (path : Text) (cache : ReadCache) : Option Text × ReadCache :=
  match cache.texts.get? path with
  | some text => (some text, cache)
  | none =>
    match fs.readText path with
    | some text => (some text, ⟨cache.texts.insert path text⟩)
    | none => (none, cache)

def size (cache : ReadCache) : Nat := cache.texts.size

theorem read_of_cached {fs : FileSystem} {path text : Text} {cache : ReadCache}
    (h : cache.texts.get? path = some text) : cache.read fs path = (some text, cache) := by
  simp [read, h]

theorem read_again {fs fs' : FileSystem} {path text : Text} {cache : ReadCache}
    (h : (cache.read fs path).1 = some text) :
    ((cache.read fs path).2.read fs' path).1 = some text := by
  unfold read at h ⊢
  cases hc : cache.texts.get? path with
  | some cached => simp_all
  | none =>
    cases hr : fs.readText path with
    | some found => simp_all
    | none => simp_all

end ReadCache

end FencedCode
