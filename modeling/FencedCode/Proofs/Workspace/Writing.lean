import FencedCode.Workspace.Overlay

/-!
# Writing to an overlay

After a sequence of writes a file has the text that was written last under any of its names, and
its version has grown by one for each write that changed the text. A version that has not grown
therefore means that every write repeated the text, and that the file is the one it was.
-/

namespace FencedCode.Overlay

/-- The text of a file. -/
def text? (o : Overlay) (path : Text) : Option Text := (o.get? path).map (·.text)

theorem contains_eq_isSome_text? (o : Overlay) (path : Text) :
    o.contains path = (o.text? path).isSome := by
  rw [text?, Option.isSome_map, contains]

theorem text?_write (o : Overlay) (name path text : Text) :
    (o.write name text).text? path =
      if Path.normalize name = Path.normalize path then some text else o.text? path := by
  unfold text?
  rw [get?_write]
  split
  · rw [Option.map_some, text_updated]
  · rfl

/-- A write that repeats the text of a file leaves the file as it is. -/
theorem get?_write_of_text {o : Overlay} {name path text : Text}
    (h : Path.normalize name = Path.normalize path → o.text? path = some text) :
    (o.write name text).get? path = o.get? path := by
  rw [get?_write]
  split
  · rename_i hname
    obtain ⟨file, hfile, htext⟩ := Option.map_eq_some_iff.mp (h hname)
    have hsame : o.get? name = some file := by rw [get?, hname, ← get?, hfile]
    rw [hsame, hfile, updated, if_pos htext]
  · rfl

theorem version_write (o : Overlay) (name path text : Text) :
    (o.write name text).version path = o.version path +
      if Path.normalize name = Path.normalize path ∧ o.text? path ≠ some text then 1 else 0 := by
  by_cases hname : Path.normalize name = Path.normalize path
  · have hsame : o.get? name = o.get? path := by rw [get?, hname, get?]
    unfold version text?
    rw [get?_write, if_pos hname, hsame]
    rcases o.get? path with _ | file
    · simp [updated, hname]
    · by_cases htext : file.text = text
      · simp [updated, htext]
      · simp [updated, htext, hname]
  · rw [if_neg fun h ↦ hname h.1, version, get?_write, if_neg hname, version, Nat.add_zero]

/-- The overlay after writes of texts under names, in order. -/
def writeAll (o : Overlay) (writes : List (Text × Text)) : Overlay :=
  writes.foldl (fun o (name, text) ↦ o.write name text) o

@[simp] theorem writeAll_nil (o : Overlay) : o.writeAll [] = o := rfl

@[simp] theorem writeAll_cons (o : Overlay) (name text : Text) (rest : List (Text × Text)) :
    o.writeAll ((name, text) :: rest) = (o.write name text).writeAll rest := rfl

theorem writeAll_append (o : Overlay) (writes others : List (Text × Text)) :
    o.writeAll (writes ++ others) = (o.writeAll writes).writeAll others := List.foldl_append

/-- How many of the writes change the text of a file. The write that creates it is one of them. -/
def changes (o : Overlay) (path : Text) : List (Text × Text) → Nat
  | [] => 0
  | (name, text) :: rest =>
    (if Path.normalize name = Path.normalize path ∧ o.text? path ≠ some text then 1 else 0) +
      (o.write name text).changes path rest

theorem version_writeAll (o : Overlay) (path : Text) (writes : List (Text × Text)) :
    (o.writeAll writes).version path = o.version path + o.changes path writes := by
  induction writes generalizing o with
  | nil => rfl
  | cons e rest ih =>
    obtain ⟨name, text⟩ := e
    rw [writeAll_cons, ih, version_write, changes, Nat.add_assoc]

theorem changes_cons_eq_zero_iff {o : Overlay} {path name text : Text}
    {rest : List (Text × Text)} : o.changes path ((name, text) :: rest) = 0 ↔
      (Path.normalize name = Path.normalize path → o.text? path = some text) ∧
        (o.write name text).changes path rest = 0 := by
  simp [changes]

/-- No write changes the text exactly when each repeats the text that it finds. -/
theorem changes_eq_zero_iff {o : Overlay} {path : Text} {writes : List (Text × Text)} :
    o.changes path writes = 0 ↔ ∀ front name text back,
      writes = front ++ (name, text) :: back → Path.normalize name = Path.normalize path →
        (o.writeAll front).text? path = some text := by
  induction writes generalizing o with
  | nil => simp [changes]
  | cons e rest ih =>
    obtain ⟨first, written⟩ := e
    rw [changes_cons_eq_zero_iff, ih]
    constructor
    · rintro ⟨hfirst, hrest⟩ front name text back hsplit hname
      cases front with
      | nil =>
        obtain ⟨heq, -⟩ := List.cons.inj hsplit
        obtain ⟨rfl, rfl⟩ := Prod.mk.inj heq
        exact hfirst hname
      | cons _ front =>
        obtain ⟨rfl, hbehind⟩ := List.cons.inj hsplit
        exact hrest front name text back hbehind hname
    · intro h
      refine ⟨h [] first written rest rfl, fun front name text back hsplit ↦ ?_⟩
      exact h ((first, written) :: front) name text back (by rw [hsplit, List.cons_append])

/-- While no write changes the text the file stays what it is. -/
theorem get?_writeAll_of_changes_eq_zero {o : Overlay} {path : Text}
    {writes : List (Text × Text)} (h : o.changes path writes = 0) :
    (o.writeAll writes).get? path = o.get? path := by
  induction writes generalizing o with
  | nil => rfl
  | cons e rest ih =>
    obtain ⟨name, text⟩ := e
    obtain ⟨hfirst, hrest⟩ := changes_cons_eq_zero_iff.mp h
    rw [writeAll_cons, ih hrest, get?_write_of_text hfirst]

/-- A version that has not grown belongs to the same file. -/
theorem get?_writeAll_of_version_eq {o : Overlay} {path : Text} {writes : List (Text × Text)}
    (h : (o.writeAll writes).version path = o.version path) :
    (o.writeAll writes).get? path = o.get? path := by
  rw [version_writeAll, Nat.add_eq_left] at h
  exact get?_writeAll_of_changes_eq_zero h

theorem changes_eq_zero_iff_forall_mem {o : Overlay} {path : Text}
    {writes : List (Text × Text)} : o.changes path writes = 0 ↔
      ∀ e ∈ writes, Path.normalize e.1 = Path.normalize path → o.text? path = some e.2 := by
  induction writes generalizing o with
  | nil => simp [changes]
  | cons e rest ih =>
    obtain ⟨name, text⟩ := e
    rw [changes_cons_eq_zero_iff, List.forall_mem_cons]
    refine and_congr_right fun hfirst ↦ ?_
    rw [ih, text?, get?_write_of_text hfirst, ← text?]

/-- Writes leave a file as it is exactly when all of them repeat its text. -/
theorem get?_writeAll_eq_iff {o : Overlay} {path : Text} {writes : List (Text × Text)} :
    (o.writeAll writes).get? path = o.get? path ↔
      ∀ e ∈ writes, Path.normalize e.1 = Path.normalize path → o.text? path = some e.2 := by
  rw [← changes_eq_zero_iff_forall_mem]
  refine ⟨fun h ↦ ?_, get?_writeAll_of_changes_eq_zero⟩
  have hversion := version_writeAll o path writes
  rw [version, h, ← version] at hversion
  exact Nat.left_eq_add.mp hversion

theorem text?_writeAll_of_forall_ne {path : Text} {writes : List (Text × Text)}
    (h : ∀ e ∈ writes, Path.normalize e.1 ≠ Path.normalize path) (o : Overlay) :
    (o.writeAll writes).text? path = o.text? path := by
  induction writes generalizing o with
  | nil => rfl
  | cons e rest ih =>
    obtain ⟨name, text⟩ := e
    obtain ⟨hfirst, hrest⟩ := List.forall_mem_cons.mp h
    rw [writeAll_cons, ih hrest, text?_write, if_neg hfirst]

/-- A file has the text that was written last under one of its names. -/
theorem text?_writeAll_append_cons {name path : Text} (hname : Path.normalize name =
    Path.normalize path) {later : List (Text × Text)}
    (hlater : ∀ e ∈ later, Path.normalize e.1 ≠ Path.normalize path) (o : Overlay)
    (earlier : List (Text × Text)) (text : Text) :
    (o.writeAll (earlier ++ (name, text) :: later)).text? path = some text := by
  rw [writeAll_append, writeAll_cons, text?_writeAll_of_forall_ne hlater, text?_write, if_pos hname]

theorem version_eq_zero_of_text?_eq_none {o : Overlay} {path : Text} (h : o.text? path = none) :
    o.version path = 0 := by
  rw [version, Option.map_eq_none_iff.mp h]
  rfl

theorem text?_congr {name path : Text} (h : Path.normalize name = Path.normalize path)
    (o : Overlay) : o.text? name = o.text? path := by
  rw [text?, get?, h, ← get?, ← text?]

/-- Writes only add entries, behind those that are there. -/
theorem keys_prefix_keys_writeAll (o : Overlay) (writes : List (Text × Text)) :
    o.files.keys <+: (o.writeAll writes).files.keys := by
  induction writes generalizing o with
  | nil => exact List.prefix_refl _
  | cons e rest ih =>
    obtain ⟨name, text⟩ := e
    have hfirst : o.files.keys <+: (o.write name text).files.keys := by
      rw [keys_write]
      split
      · exact List.prefix_refl _
      · exact List.prefix_append _ _
    exact hfirst.trans (ih _)

theorem get?_files_writeAll_of_forall_ne {key : Text} {writes : List (Text × Text)}
    (h : ∀ e ∈ writes, Path.normalize e.1 ≠ key) (o : Overlay) :
    (o.writeAll writes).files.get? key = o.files.get? key := by
  induction writes generalizing o with
  | nil => rfl
  | cons e rest ih =>
    obtain ⟨hfirst, hrest⟩ := List.forall_mem_cons.mp h
    rw [writeAll_cons, ih hrest, write, Table.get?_insert, if_neg hfirst]

/-- Writes create or change an entry exactly when one of them has its name and another text. -/
theorem get?_files_writeAll_ne_iff {o : Overlay} {key : Text} {writes : List (Text × Text)} :
    (o.writeAll writes).files.get? key ≠ o.files.get? key ↔
      ∃ e ∈ writes, Path.normalize e.1 = key ∧ o.text? e.1 ≠ some e.2 := by
  by_cases hkey : ∃ e ∈ writes, Path.normalize e.1 = key
  · obtain ⟨e, -, rfl⟩ := hkey
    show ¬ (o.writeAll writes).get? e.1 = o.get? e.1 ↔ _
    rw [get?_writeAll_eq_iff]
    constructor
    · intro h
      obtain ⟨d, hd, hname, htext⟩ := by simpa only [Classical.not_forall] using h
      exact ⟨d, hd, hname, text?_congr hname o ▸ htext⟩
    · rintro ⟨d, hd, hname, htext⟩ h
      exact htext (text?_congr hname o ▸ h d hd hname)
  · have hne : ∀ e ∈ writes, Path.normalize e.1 ≠ key := fun e he heq ↦ hkey ⟨e, he, heq⟩
    refine iff_of_false (not_not_intro (get?_files_writeAll_of_forall_ne hne o)) ?_
    rintro ⟨e, he, hname, -⟩
    exact hne e he hname

end FencedCode.Overlay
