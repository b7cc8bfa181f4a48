import FencedCode.Disk.Volume

/-!
# Inventories

An inventory is a disk given by lists: the texts of its files, its folders, and the times of change
that are known. Files are looked up by the very text of their path. A folder is one that is listed,
or one that some file lies in. Configuration files are named by paths of the operating system, so a
disk that is an inventory has a volume beside it for them.
-/

namespace FencedCode

structure Inventory where
  files : Table Text Text
  folders : List Text
  times : Table Text Timestamp

namespace Inventory

/-- A path without the slashes at its end. -/
def withoutFinalSlashes (path : Text) : Text := (path.reverse.dropWhile (· = '/')).reverse

def folderExists (i : Inventory) (path : Text) : Bool :=
  i.folders.contains path || i.files.keys.any fun file ↦
    (withoutFinalSlashes path ++ ['/']).isPrefixOf file

def fileSystem (i : Inventory) : FileSystem where
  fileExists := i.files.contains
  folderExists := i.folderExists
  readText := i.files.get?
  modified := i.times.get?

end Inventory

/-- A disk that can be changed between operations. -/
inductive Disk
  | volume (v : Volume)
  /-- An inventory of sources, and the volume of the configuration files. -/
  | inventory (i : Inventory) (machine : Volume)

namespace Disk

def write (path text : Text) : Disk → Disk
  | volume v => volume (v.writeBytes path (Text.toUtf8 text))
  | inventory i machine => inventory { i with files := i.files.insert path text } machine

/-- The disk without a file, and without its time of change. -/
def remove (path : Text) : Disk → Disk
  | volume v => volume (v.removeFile path)
  | inventory i machine =>
    inventory { i with files := i.files.erase path, times := i.times.erase path } machine

/-- The disk with a new time of change for a path, where times can be chosen. -/
def touch (path : Text) (time : Timestamp) : Disk → Disk
  | volume v => volume v
  | inventory i machine => inventory { i with times := i.times.insert path time } machine

def fileSystem : Disk → FileSystem
  | volume v => v.fileSystem
  | inventory i _ => i.fileSystem

/-- Where configuration files come from. -/
def configSource : Disk → ConfigSource
  | volume v => v.configSource
  | inventory _ machine => machine.configSource

end Disk

end FencedCode
