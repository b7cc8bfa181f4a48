import FencedCode.Proofs.Path.Canonical
import FencedCode.Proofs.Workspace.Version

/-!
# Spellings of file names

Whatever is done with files, and whatever is asked about them, depends on the normal forms of their
names only. So the names in a run can be spelled differently, each time in another way, and the run
has the same answers and leaves the same workspace. Importing files of resolutions are no such
names: outcomes are remembered for them as they are written.
-/

namespace FencedCode

open FencedCode.Path (normalize normalize_normalize)

namespace Overlay

theorem get?_normalize (o : Overlay) (path : Text) : o.get? (normalize path) = o.get? path := by
  rw [get?, normalize_normalize, ← get?]

theorem write_normalize (o : Overlay) (path text : Text) :
    o.write (normalize path) text = o.write path text := by
  rw [write, normalize_normalize, get?_normalize, ← write]

end Overlay

namespace Workspace

theorem write_normalize (w : Workspace) (path text : Text) :
    w.write (normalize path) text = w.write path text := by
  rw [write, Overlay.write_normalize, ← write]

theorem setScripts_map_normalize (w : Workspace) (names : List Text) :
    w.setScripts (names.map normalize) = w.setScripts names := by
  have hnames : (names.map normalize).map normalize = names.map normalize := by
    rw [List.map_map]
    exact List.map_congr_left fun name _ ↦ normalize_normalize name
  rw [setScripts, hnames, ← setScripts]

theorem isVirtual_normalize (w : Workspace) (path : Text) :
    w.isVirtual (normalize path) = w.isVirtual path := by
  rw [isVirtual, Overlay.contains, Overlay.get?_normalize, ← Overlay.contains, ← isVirtual]

theorem fileExists_normalize (w : Workspace) (fs : FileSystem) (path : Text) :
    w.fileExists fs (normalize path) = w.fileExists fs path := by
  rw [fileExists, isVirtual_normalize, normalize_normalize, ← fileExists]

theorem folderExists_normalize (w : Workspace) (fs : FileSystem) (path : Text) :
    w.folderExists fs (normalize path) = w.folderExists fs path := by
  rw [folderExists, normalize_normalize, ← folderExists]

theorem version_normalize (w : Workspace) (fs : FileSystem) (path : Text) :
    w.version fs (normalize path) = w.version fs path := by
  rw [version, Overlay.get?_normalize, normalize_normalize, ← version]

theorem read_normalize (fs : FileSystem) (path : Text) :
    read fs (normalize path) = read fs path := by
  funext w
  rw [read, Overlay.get?_normalize, normalize_normalize, ← read]

/-! ## Operations on files -/

/-- What is done with files and asked about them. -/
inductive FileOperation
  | write (path text : Text)
  | setScripts (names : List Text)
  | isVirtual (path : Text)
  /-- A look into the overlay. -/
  | written (path : Text)
  | fileExists (path : Text)
  | folderExists (path : Text)
  | read (path : Text)
  | version (path : Text)
  | resolve (importer : Text) (names : List Text)
deriving DecidableEq

/-- The answer to an operation. A write answers with the version of the file. -/
inductive Reply
  | done
  | count (n : Nat)
  | truth (b : Bool)
  | file (file : Option OverlayFile)
  | text (text : Option Text)
  | version (version : Text)
  | modules (found : Except MissingRedirect (List (Option ResolvedModule)))

namespace FileOperation

/-- The operation on the disk that it finds. -/
def perform (fs : FileSystem) : FileOperation → StateM Workspace Reply
  | write path text => fun w ↦
    (.count ((w.write path text).overlay.version path), w.write path text)
  | setScripts names => fun w ↦ (.done, w.setScripts names)
  | isVirtual path => fun w ↦ (.truth (w.isVirtual path), w)
  | written path => fun w ↦ (.file (w.overlay.get? path), w)
  | fileExists path => fun w ↦ (.truth (w.fileExists fs path), w)
  | folderExists path => fun w ↦ (.truth (w.folderExists fs path), w)
  | read path => .text <$> Workspace.read fs path
  | version path => fun w ↦ (.version (w.version fs path), w)
  | resolve importer names => .modules <$> resolveNames fs importer names

/-- The operation with other names for its files. -/
def rename (f : Text → Text) : FileOperation → FileOperation
  | write path text => write (f path) text
  | setScripts names => setScripts (names.map f)
  | isVirtual path => isVirtual (f path)
  | written path => written (f path)
  | fileExists path => fileExists (f path)
  | folderExists path => folderExists (f path)
  | read path => read (f path)
  | version path => version (f path)
  | resolve importer names => resolve importer names

/-- The operations differ in the spellings of their names only. -/
def SpelledAlike (op op' : FileOperation) : Prop := op.rename normalize = op'.rename normalize

instance (op op' : FileOperation) : Decidable (SpelledAlike op op') :=
  inferInstanceAs (Decidable (_ = _))

theorem perform_rename_normalize (fs : FileSystem) (op : FileOperation) :
    (op.rename normalize).perform fs = op.perform fs := by
  funext w
  cases op with
  | write path text =>
    have hversion : (w.write path text).overlay.version (normalize path) =
        (w.write path text).overlay.version path := by
      rw [Overlay.version, Overlay.get?_normalize, ← Overlay.version]
    simp only [rename, perform, write_normalize, hversion]
  | setScripts names => simp only [rename, perform, setScripts_map_normalize]
  | isVirtual path => simp only [rename, perform, isVirtual_normalize]
  | written path => simp only [rename, perform, Overlay.get?_normalize]
  | fileExists path => simp only [rename, perform, fileExists_normalize]
  | folderExists path => simp only [rename, perform, folderExists_normalize]
  | read path => simp only [rename, perform, read_normalize]
  | version path => simp only [rename, perform, version_normalize]
  | resolve importer names => rfl

theorem SpelledAlike.perform_eq {op op' : FileOperation} (h : SpelledAlike op op')
    (fs : FileSystem) : op'.perform fs = op.perform fs := by
  rw [← perform_rename_normalize, ← h, perform_rename_normalize]

end FileOperation

/-- The replies to operations, each on the disk that it finds. -/
def performAll : List (FileSystem × FileOperation) → StateM Workspace (List Reply)
  | [] => return []
  | (fs, op) :: rest => do
    let reply ← op.perform fs
    let replies ← performAll rest
    return reply :: replies

/-- Operations that differ in the spellings of names, on the same disks, have the same replies and
leave the same workspace. -/
theorem performAll_of_spelledAlike {ops ops' : List (FileSystem × FileOperation)}
    (h : List.Forall₂ (fun a b ↦ a.1 = b.1 ∧ a.2.SpelledAlike b.2) ops ops') (w : Workspace) :
    (performAll ops' w).1 = (performAll ops w).1 ∧
      (performAll ops' w).2 = (performAll ops w).2 := by
  suffices heq : performAll ops' = performAll ops by
    rw [heq]
    exact ⟨rfl, rfl⟩
  induction h with
  | nil => rfl
  | @cons a b rest rest' hhead _ ih =>
    obtain ⟨fs, op⟩ := a
    obtain ⟨fs', op'⟩ := b
    obtain ⟨rfl, halike⟩ := hhead
    rw [performAll, performAll, halike.perform_eq, ih]

/-- A file that is written and asked for under three spellings of its name. -/
theorem performAll_spelled :
    (performAll [(.empty, .write "d/./a.ts".toList ['x']), (.empty, .write "d//a.ts".toList ['y']),
        (.empty, .version "d/b/../a.ts".toList)] (ofOptions .empty Table.empty)).1 =
      [.count 1, .count 2, .version ['2']] := by
  have halike : List.Forall₂ (fun a b ↦ a.1 = b.1 ∧ FileOperation.SpelledAlike a.2 b.2)
      [(FileSystem.empty, .write "d/a.ts".toList ['x']), (.empty, .write "d/a.ts".toList ['y']),
        (.empty, .version "d/a.ts".toList)]
      [(.empty, .write "d/./a.ts".toList ['x']), (.empty, .write "d//a.ts".toList ['y']),
        (.empty, .version "d/b/../a.ts".toList)] :=
    .cons ⟨rfl, by decide⟩ (.cons ⟨rfl, by decide⟩ (.cons ⟨rfl, by decide⟩ .nil))
  rw [(performAll_of_spelledAlike halike _).1]
  rfl

end Workspace

end FencedCode
