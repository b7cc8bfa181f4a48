import FencedCode.Disk.FileSystem
import FencedCode.Path.Native
import FencedCode.Text.Utf8

/-!
# Volumes

A volume is a tree of files and folders, kept as a table from the walked names of each entry to the
entry. Paths are walked name by name from the root or from the current folder; every name before
the last must be a folder, and `..` goes back to the folder above.
-/

namespace FencedCode

inductive Volume.Entry
  | file (bytes : List UInt8) (changed : Timestamp)
  | folder (changed : Timestamp)

/-- Entries by the names that lead to them from the root. The root itself is always a folder. -/
structure Volume where
  entries : Table (List Text) Volume.Entry
  current : List Text
  /-- Counts the changes, so that each has a time of its own. -/
  clock : Nat

namespace Volume

/-- The entry at a place. -/
def entryAt? (v : Volume) (place : List Text) : Option Entry :=
  if place.isEmpty then some (.folder ⟨0, 0, by omega⟩) else v.entries.get? place

def isFolderAt (v : Volume) (place : List Text) : Bool :=
  match v.entryAt? place with
  | some (.folder _) => true
  | _ => false

/-- The names of a path, in order. An empty name stays where it is, like `.`. -/
def names (path : Text) : List Text := path.splitOn '/'

/-- The place at which the walk of a path begins. -/
def origin (v : Volume) (path : Text) : List Text :=
  if path.head? = some '/' then [] else v.current

/-- The most bytes in one name of a path. -/
def maxName : Nat := 255

/-- The most bytes in a path. -/
def maxPath : Nat := 4095

/-- One name further from a place, which must be a folder. -/
def step (v : Volume) (place : List Text) (name : Text) : Except ReadFault (List Text) :=
  if !v.isFolderAt place || maxName < Text.byteSize name then .error .unreadable
  else if name = [] ∨ name = ['.'] then .ok place
  else if name = ['.', '.'] then .ok place.dropLast
  else if (v.entryAt? (place ++ [name])).isSome then .ok (place ++ [name])
  else .error .missing

/-- A path that is no name of anything, whatever the entries are. -/
def isRefused (path : Text) : Bool := path.contains '\x00' || maxPath < Text.byteSize path

/-- The place that a path leads to. -/
def locate (v : Volume) (path : Text) : Except ReadFault (List Text) :=
  if path.isEmpty then .error .missing
  else if isRefused path then .error .unreadable
  else (names path).foldlM v.step (v.origin path)

def entry? (v : Volume) (path : Text) : Option Entry :=
  match v.locate path with
  | .ok place => v.entryAt? place
  | .error _ => none

def isFile (v : Volume) (path : Text) : Bool :=
  match v.entry? path with
  | some (.file _ _) => true
  | _ => false

def isFolder (v : Volume) (path : Text) : Bool :=
  match v.entry? path with
  | some (.folder _) => true
  | _ => false

def readBytes (v : Volume) (path : Text) : Except ReadFault (List UInt8) := do
  match v.entryAt? (← v.locate path) with
  | some (.file bytes _) => .ok bytes
  | _ => .error .unreadable

def modified (v : Volume) (path : Text) : Option Timestamp :=
  (v.entry? path).map fun
    | .file _ changed => changed
    | .folder changed => changed

/-- The time of the next change. -/
def now (v : Volume) : Timestamp := ⟨v.clock + 1, 0, by omega⟩

def put (v : Volume) (place : List Text) (entry : Entry) : Volume :=
  { v with entries := v.entries.insert place entry, clock := v.clock + 1 }

/-- The place for a new entry at a path with the given names: there is nothing at the last name, and
the others lead to a folder. -/
def vacancy? (v : Volume) (path : Text) (names : List Text) : Option (List Text) :=
  match names.dropLast.foldlM v.step (v.origin path), names.getLast? with
  | .ok place, some name =>
    match v.step place name with
    | .error .missing => some (place ++ [name])
    | _ => none
  | _, _ => none

/-- The volume with a new folder at the path, where there is room for one. Slashes at the end of the
path do not count. -/
def addFolder (path : Text) (v : Volume) : Volume :=
  match v.vacancy? path ((names path).reverse.dropWhile (·.isEmpty)).reverse with
  | some place => v.put place (.folder v.now)
  | none => v

/-- The volume with a folder at the path and at all paths above it, as far as there is room. -/
def makeFolder (v : Volume) (path : Text) : Volume :=
  if isRefused path then v else (NativePath.ancestors path).foldr addFolder v

/-- The volume with a file at the path and the folders above it. Where a folder or a file is in the
way, the file is not written, and a path with a slash at its end is none of a file. -/
def writeBytes (v : Volume) (path : Text) (bytes : List UInt8) : Volume :=
  let v := (NativePath.parent? path).elim v v.makeFolder
  match v.locate path with
  | .ok place => if v.isFolderAt place then v else v.put place (.file bytes v.now)
  | .error .missing =>
    match v.vacancy? path (names path) with
    | some place => v.put place (.file bytes v.now)
    | none => v
  | .error .unreadable => v

/-- The volume without the file at the path. -/
def removeFile (v : Volume) (path : Text) : Volume :=
  match v.locate path with
  | .ok place => if v.isFolderAt place then v else { v with entries := v.entries.erase place }
  | .error _ => v

/-- The disk as compilation sees it. A byte order mark is not part of a text. -/
def fileSystem (v : Volume) : FileSystem where
  fileExists := v.isFile
  folderExists := v.isFolder
  readText path :=
    match v.readBytes path with
    | .ok bytes => Text.ofMarkedUtf8? bytes
    | .error _ => none
  modified := v.modified

/-- The disk as the loading of configuration files sees it. A byte order mark is part of a text, and
bytes that are no text make a file unreadable. -/
def configSource (v : Volume) : ConfigSource where
  readText path := do
    match Text.ofUtf8? (← v.readBytes path) with
    | some text => .ok text
    | none => .error .unreadable
  isFile := v.isFile

/-- A volume with an empty current folder. -/
def atFolder (path : Text) : Volume :=
  let place := (names path).filter fun name ↦ !name.isEmpty
  { (⟨Table.empty, [], 0⟩ : Volume).makeFolder path with current := place }

end Volume

end FencedCode
