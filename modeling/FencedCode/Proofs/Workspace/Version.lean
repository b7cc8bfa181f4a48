import FencedCode.Proofs.Workspace.Frame
import FencedCode.Proofs.Workspace.Writing

/-!
# Versions of written files

Between two moments a workspace is written to, gets other files to check, and is asked questions,
while the disk changes as it likes. The version of a file that is written at the later moment was
the same at the earlier moment exactly when the file was written then and every write since has
repeated its text. The texts of versions cannot be mixed up: a written file has a number, and a file
on disk a text that is no number.
-/

namespace FencedCode

/-- A time has a hyphen behind its year. -/
theorem Timestamp.hyphen_mem_rfc3339 (t : Timestamp) : '-' ∈ t.rfc3339 := by simp [rfc3339]

/-- No version of a file on disk is a number. -/
theorem FileSystem.version_ne_ofNat (fs : FileSystem) (path : Text) (n : Nat) :
    fs.version path ≠ Text.ofNat n := by
  intro h
  unfold version at h
  split at h
  · rename_i time _
    exact Text.notMem_ofNat (by decide) n (h ▸ time.hyphen_mem_rfc3339)
  · exact Text.notMem_ofNat (c := 'u') (by decide) n (h ▸ by decide)

/-- A disk with nothing on it. -/
def FileSystem.empty : FileSystem := ⟨fun _ ↦ false, fun _ ↦ false, fun _ ↦ none, fun _ ↦ none⟩

namespace Workspace

/-- What can happen to a workspace. Each question finds a disk of its own. -/
inductive Event
  | write (path text : Text)
  | setScripts (names : List Text)
  | ask (fs : FileSystem) (inquiry : Inquiry)

namespace Event

/-- The workspace after the event. -/
def apply (w : Workspace) : Event → Workspace
  | write path text => w.write path text
  | setScripts names => w.setScripts names
  | ask fs inquiry => (answer fs inquiry w).2

/-- The name and the text that are written. -/
def written? : Event → Option (Text × Text)
  | write path text => some (path, text)
  | setScripts _ => none
  | ask _ _ => none

theorem overlay_apply (w : Workspace) (event : Event) :
    (event.apply w).overlay = w.overlay.writeAll event.written?.toList := by
  cases event with
  | write path text => rfl
  | setScripts names => rfl
  | ask fs inquiry => exact (onlyAsks_answer fs inquiry w).overlay

theorem written?_eq_some_iff {event : Event} {path text : Text} :
    event.written? = some (path, text) ↔ event = write path text := by
  cases event <;> simp [written?]

end Event

/-- The workspace after the events, in order. -/
def after (events : List Event) (w : Workspace) : Workspace := events.foldl Event.apply w

theorem after_append (events others : List Event) (w : Workspace) :
    after (events ++ others) w = after others (after events w) := List.foldl_append

/-- Only the writes among the events count for the overlay. -/
theorem overlay_after (events : List Event) (w : Workspace) :
    (after events w).overlay = w.overlay.writeAll (events.filterMap Event.written?) := by
  induction events generalizing w with
  | nil => rfl
  | cons event rest ih =>
    show (after rest (event.apply w)).overlay = _
    rw [ih, Event.overlay_apply, ← Overlay.writeAll_append]
    cases h : event.written? <;> simp [h]

theorem version_of_isVirtual {w : Workspace} {path : Text} (h : w.isVirtual path)
    (fs : FileSystem) : w.version fs path = Text.ofNat (w.overlay.version path) := by
  obtain ⟨file, hfile⟩ := Option.isSome_iff_exists.mp h
  rw [version, hfile, Overlay.version, hfile]
  rfl

theorem version_of_not_isVirtual {w : Workspace} {path : Text} (h : ¬ w.isVirtual path)
    (fs : FileSystem) : w.version fs path = fs.version (Path.normalize path) := by
  have hnone : w.overlay.get? path = none := Option.not_isSome_iff_eq_none.mp h
  rw [version, hnone]

/-- Versions are the same when both files are written and have changed equally often. -/
theorem version_eq_version_iff {w w' : Workspace} {path : Text} (h : w'.isVirtual path)
    (fs fs' : FileSystem) : w.version fs path = w'.version fs' path ↔
      w.isVirtual path ∧ w.overlay.version path = w'.overlay.version path := by
  rw [version_of_isVirtual h]
  by_cases hw : w.isVirtual path
  · rw [version_of_isVirtual hw, Text.ofNat_injective.eq_iff]
    simp [hw]
  · rw [version_of_not_isVirtual hw]
    simp [hw, FileSystem.version_ne_ofNat]

/-- The events change no text exactly when every write among them repeats what it finds. -/
theorem changes_writes_eq_zero_iff {w : Workspace} {path : Text} {events : List Event} :
    w.overlay.changes path (events.filterMap Event.written?) = 0 ↔ ∀ front name text back,
      events = front ++ .write name text :: back → Path.normalize name = Path.normalize path →
        (after front w).overlay.text? path = some text := by
  rw [Overlay.changes_eq_zero_iff]
  constructor
  · rintro h front name text back rfl hname
    rw [overlay_after]
    apply h _ name text (back.filterMap Event.written?) _ hname
    rw [List.filterMap_append, List.filterMap_cons]
    rfl
  · intro h front name text back hsplit hname
    obtain ⟨before, others, rfl, rfl, hothers⟩ := List.filterMap_eq_append_iff.mp hsplit
    obtain ⟨idle, event, behind, rfl, hidle, hevent, -⟩ := List.filterMap_eq_cons_iff.mp hothers
    rw [Event.written?_eq_some_iff] at hevent
    have htext := h (before ++ idle) name text behind (by rw [hevent, List.append_assoc]) hname
    rw [overlay_after, List.filterMap_append, List.filterMap_eq_nil_iff.mpr hidle,
      List.append_nil] at htext
    exact htext

theorem read_eq_of_get?_eq {w w' : Workspace} {path : Text} (h : w.isVirtual path)
    (hsame : w'.overlay.get? path = w.overlay.get? path) (fs fs' : FileSystem) :
    (read fs path w).1 = (read fs' path w').1 := by
  obtain ⟨file, hfile⟩ := Option.isSome_iff_exists.mp h
  rw [read, hfile, read, hsame, hfile]

/-- The version of a written file is what it was at an earlier moment of a run exactly when the file
was written then and every write since has repeated its text. The file is then the same. Versions
are counted from one, by the writes that change the text. -/
theorem version_unchanged_iff (options : CompilerOptions) (resolver : Resolver)
    (redirects : Redirects) (earlier later : List Event) (path : Text) (fs fs' : FileSystem)
    (first second : Workspace) (hfirst : first = after earlier (new options resolver redirects))
    (hsecond : second = after later first) (hvirtual : second.isVirtual path) :
    (first.version fs path = second.version fs' path ↔
      first.isVirtual path ∧ ∀ front name text back,
        later = front ++ .write name text :: back → Path.normalize name = Path.normalize path →
          (after front first).overlay.text? path = some text) ∧
    (first.version fs path = second.version fs' path →
      (read fs path first).1 = (read fs' path second).1) ∧
    second.overlay.version path = first.overlay.version path +
      first.overlay.changes path (later.filterMap Event.written?) ∧
    0 < second.overlay.version path ∧
    (¬ first.isVirtual path → first.overlay.version path = 0) := by
  have hsecondOverlay : second.overlay =
      first.overlay.writeAll (later.filterMap Event.written?) := by rw [hsecond, overlay_after]
  have hcount := Overlay.version_writeAll first.overlay path (later.filterMap Event.written?)
  rw [← hsecondOverlay] at hcount
  have hiff : first.version fs path = second.version fs' path ↔
      first.isVirtual path ∧ first.overlay.changes path (later.filterMap Event.written?) = 0 := by
    rw [version_eq_version_iff hvirtual, hcount, Nat.left_eq_add]
  refine ⟨by rw [hiff, changes_writes_eq_zero_iff], fun htoken ↦ ?_, hcount, ?_, fun hnot ↦ ?_⟩
  · obtain ⟨hwritten, hzero⟩ := hiff.mp htoken
    apply read_eq_of_get?_eq hwritten
    rw [hsecondOverlay, Overlay.get?_writeAll_of_changes_eq_zero hzero]
  · -- From the beginning on, a file that is there has changed at least once.
    apply Nat.pos_of_ne_zero
    intro hzero
    have hall : second.overlay = Overlay.empty.writeAll ((earlier ++ later).filterMap
        Event.written?) := by
      rw [hsecond, hfirst, ← after_append, overlay_after]
      rfl
    rw [hall, Overlay.version_writeAll] at hzero
    have hnone := Overlay.get?_writeAll_of_changes_eq_zero (Nat.add_eq_zero_iff.mp hzero).2
    rw [← hall] at hnone
    rw [isVirtual, Overlay.contains, hnone] at hvirtual
    exact Bool.false_ne_true hvirtual
  · apply Overlay.version_eq_zero_of_text?_eq_none
    rw [isVirtual, Overlay.contains_eq_isSome_text?] at hnot
    exact Option.not_isSome_iff_eq_none.mp hnot

/-- A text that comes back under another spelling of the name has a version of its own. -/
theorem version_ne_of_text_restored :
    (after [.write "d/a.ts".toList ['y'], .setScripts [], .write "d//a.ts".toList ['x']]
      (after [.write "d/a.ts".toList ['x']] (ofOptions .empty Table.empty))).isVirtual
        "d/./a.ts".toList ∧
    (after [.write "d/a.ts".toList ['x']] (ofOptions .empty Table.empty)).version .empty
        "d/./a.ts".toList ≠
      (after [.write "d/a.ts".toList ['y'], .setScripts [], .write "d//a.ts".toList ['x']]
        (after [.write "d/a.ts".toList ['x']] (ofOptions .empty Table.empty))).version .empty
          "d/./a.ts".toList := by
  have hvirtual : (after [.write "d/a.ts".toList ['y'], .setScripts [],
      .write "d//a.ts".toList ['x']] (after [.write "d/a.ts".toList ['x']]
        (ofOptions .empty Table.empty))).isVirtual "d/./a.ts".toList := by decide
  have hunchanged := version_unchanged_iff .empty (Resolver.ofOptions .empty) Table.empty
    [.write "d/a.ts".toList ['x']]
    [.write "d/a.ts".toList ['y'], .setScripts [], .write "d//a.ts".toList ['x']]
    "d/./a.ts".toList .empty .empty _ _ rfl rfl hvirtual
  refine ⟨hvirtual, fun hsame ↦ ?_⟩
  have htext := (hunchanged.1.mp hsame).2 [] _ _ _ rfl (by decide)
  exact absurd htext (by decide)

end Workspace

end FencedCode
