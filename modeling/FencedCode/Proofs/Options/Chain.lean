import FencedCode.Options.Config
import FencedCode.Proofs.Json.Fields
import FencedCode.Proofs.Module.PackageName

/-!
# Chains of configuration files

A configuration file may name another one that it extends, so a file begins a chain. Options are
loaded from the chain when it ends within 32 files that can all be read: each key has the value of
the first file that declares it. When the chain goes on behind 32 files, as every cycle does, or
when it breaks before, loading fails.
-/

namespace FencedCode

namespace ConfigFile

theorem ascending_of_ofText? {text : Text} {config : ConfigFile} (h : ofText? text = some config) :
    config.options.Ascending := by
  unfold ofText? at h
  simp only [Option.bind_eq_bind, Option.bind_eq_some_iff] at h
  obtain ⟨tree, -, slots, -, h⟩ := h
  split at h
  · simp only [Option.bind_eq_some_iff] at h
    obtain ⟨parent, -, fields, hfields, h⟩ := h
    obtain rfl := Option.some.inj h
    exact Json.ascending_of_fieldsOrEmpty? hfields
  · exact absurd h (Option.some_ne_none _).symm

theorem ascending_of_read {source : ConfigSource} {path : Text} {config : ConfigFile}
    (h : read source path = .ok config) : config.options.Ascending := by
  unfold read at h
  split at h
  · exact absurd h (by simp)
  · exact absurd h (by simp)
  · split at h
    · rename_i heq
      obtain rfl := Except.ok.inj h
      exact ascending_of_ofText? heq
    · exact absurd h (by simp)

/-! ## Targets -/

/-- A target says no more than the name of a package, which has two segments when it begins with a
scope, and one otherwise. -/
def IsPackageName (target : Text) : Prop :=
  target.count '/' < if target.head? = some '@' then 2 else 1

instance (target : Text) : Decidable (IsPackageName target) := by
  unfold IsPackageName
  infer_instance

/-- The place of a package target in the package folder of a directory. -/
def inPackages (ancestor target : Text) : Text :=
  NativePath.join (NativePath.join ancestor "node_modules".toList)
    (if IsPackageName target then target ++ "/tsconfig.json".toList else withExtension target)

/-- The file that a file extends when it names the target. A target that begins with a dot or is
absolute is read from the directory of the file. Any other target is looked for in the package
folders of this directory and of those above it, and the nearest one that has the file counts. -/
inductive Names (source : ConfigSource) (path target : Text) : Text → Prop
  | file (h : target.head? = some '.' ∨ NativePath.isAbsolute target) :
      Names source path target (NativePath.join (NativePath.folder path) (withExtension target))
  | package (h : ¬ (target.head? = some '.' ∨ NativePath.isAbsolute target))
      {nearer farther : List Text} {ancestor : Text}
      (hancestors : NativePath.ancestors (NativePath.folder path) = nearer ++ ancestor :: farther)
      (hfile : source.isFile (inPackages ancestor target))
      (hnearer : ∀ a ∈ nearer, ¬ source.isFile (inPackages a target)) :
      Names source path target (inPackages ancestor target)

theorem packageCandidates_eq (folder target : Text) :
    packageCandidates folder target =
      (NativePath.ancestors folder).map (inPackages · target) := by
  have hfile : packageFile target =
      if IsPackageName target then target ++ "/tsconfig.json".toList
      else withExtension target := by
    unfold packageFile
    have hbare : (PackageName.split target).2 = none ↔ IsPackageName target :=
      PackageName.snd_split_eq_none_iff
    rcases hsplit : PackageName.split target with ⟨_, _ | inner⟩
    · rw [hsplit] at hbare
      rw [if_pos (hbare.mp rfl)]
    · rw [hsplit] at hbare
      rw [if_neg fun h ↦ absurd (hbare.mpr h) (Option.some_ne_none inner)]
  rw [packageCandidates, hfile]
  rfl

variable {source : ConfigSource} {path target next : Text}

/-- The file that is taken is the one in the first package folder that has it. -/
theorem find?_packageCandidates_eq_some_iff {folder : Text} :
    (packageCandidates folder target).find? source.isFile = some next ↔
      ∃ nearer ancestor farther, NativePath.ancestors folder = nearer ++ ancestor :: farther ∧
        source.isFile (inPackages ancestor target) ∧
        (∀ a ∈ nearer, ¬ source.isFile (inPackages a target)) ∧
        inPackages ancestor target = next := by
  simp only [packageCandidates_eq, List.find?_map, Option.map_eq_some_iff,
    List.find?_eq_some_iff_append, Function.comp_apply, Bool.not_eq_true', Bool.not_eq_true]
  constructor
  · rintro ⟨ancestor, ⟨hfile, nearer, farther, hancestors, hnearer⟩, hnext⟩
    exact ⟨nearer, ancestor, farther, hancestors, hfile, hnearer, hnext⟩
  · rintro ⟨nearer, ancestor, farther, hancestors, hfile, hnearer, hnext⟩
    exact ⟨ancestor, ⟨hfile, nearer, farther, hancestors, hnearer⟩, hnext⟩

theorem parentPath_eq_ok_iff :
    parentPath source path target = .ok next ↔ Names source path target next := by
  unfold parentPath
  by_cases hfile : target.head? = some '.' ∨ NativePath.isAbsolute target
  · simp only [if_pos hfile, Except.ok.injEq]
    constructor
    · rintro rfl
      exact .file hfile
    · rintro (_ | ⟨hnot, -, -, -⟩)
      · rfl
      · exact absurd hfile hnot
  · simp only [if_neg hfile]
    constructor
    · intro h
      split at h
      · rename_i candidate hfound
        obtain rfl := Except.ok.inj h
        obtain ⟨nearer, ancestor, farther, hancestors, hcandidate, hnearer, rfl⟩ :=
          find?_packageCandidates_eq_some_iff.mp hfound
        exact .package hfile hancestors hcandidate hnearer
      · exact absurd h (by simp)
    · rintro (hagain | ⟨-, hancestors, hcandidate, hnearer⟩)
      · exact absurd hagain hfile
      · rw [find?_packageCandidates_eq_some_iff.mpr
          ⟨_, _, _, hancestors, hcandidate, hnearer, rfl⟩]

theorem parentPath_eq_error_iff {e : CompileError} :
    parentPath source path target = .error e ↔
      e = .configuration path (.packageNotFound target) ∧
        ∀ next, ¬ Names source path target next := by
  have herror : ∀ e', parentPath source path target = .error e' →
      e' = .configuration path (.packageNotFound target) := by
    intro e' h
    unfold parentPath at h
    dsimp only at h
    split at h
    · exact absurd h (by simp)
    · split at h
      · exact absurd h (by simp)
      · exact (Except.error.inj h).symm
  simp only [← parentPath_eq_ok_iff]
  cases hparent : parentPath source path target with
  | ok found => simp
  | error e' =>
    rw [herror e' hparent]
    simp [eq_comm]

/-! ## Chains -/

/-- The files are a chain that begins at `start`, and each of them is read and extends the next
one. The last one extends the file at the path. -/
inductive LeadsTo (source : ConfigSource) (start : Text) : List (Text × ConfigFile) → Text → Prop
  | start : LeadsTo source start [] start
  | step {files : List (Text × ConfigFile)} {path target next : Text} {config : ConfigFile}
      (h : LeadsTo source start files path) (hread : read source path = .ok config)
      (hparent : config.parent = some target) (hnext : Names source path target next) :
      LeadsTo source start (files ++ [(path, config)]) next

/-- The chain ends with this file. -/
def EndsAt (source : ConfigSource) (path : Text) (config : ConfigFile) : Prop :=
  read source path = .ok config ∧ config.parent = none

/-- The chain breaks at the path: no configuration can be read there, or the one that is read
extends a package that is not found. -/
inductive BreaksAt (source : ConfigSource) (path : Text) : CompileError → Prop
  | unread {e : CompileError} (hread : read source path = .error e) : BreaksAt source path e
  | lost {config : ConfigFile} {target : Text} (hread : read source path = .ok config)
      (hparent : config.parent = some target) (hlost : ∀ next, ¬ Names source path target next) :
      BreaksAt source path (.configuration path (.packageNotFound target))

variable {start : Text} {files : List (Text × ConfigFile)}

theorem EndsAt.chain_eq {config : ConfigFile} (h : EndsAt source path config) (first : Text)
    (room : Nat) :
    chain source first (room + 1) path = .ok [anchored path config.options] := by
  simp only [chain, h.1, bind, Except.bind, h.2]
  rfl

theorem BreaksAt.chain_eq {e : CompileError} (h : BreaksAt source path e) (first : Text)
    (room : Nat) : chain source first (room + 1) path = .error e := by
  cases h with
  | unread hread => simp only [chain, hread, bind, Except.bind]
  | lost hread hparent hlost =>
    have hparentPath := parentPath_eq_error_iff.mpr ⟨rfl, hlost⟩
    simp only [chain, hread, bind, Except.bind, hparent, hparentPath]

theorem chain_of_names {config : ConfigFile} (hread : read source path = .ok config)
    (hparent : config.parent = some target) (hnext : Names source path target next) (first : Text)
    (room : Nat) : chain source first (room + 1) path =
      (chain source first room next).map (anchored path config.options :: ·) := by
  have hparentPath := parentPath_eq_ok_iff.mpr hnext
  simp only [chain, hread, bind, Except.bind, hparent, hparentPath]
  cases chain source first room next with
  | error e => rfl
  | ok rest => rfl

/-- A chain is read by reading its files, and then what it leads to. -/
theorem LeadsTo.chain_eq (h : LeadsTo source start files path) (first : Text) (room : Nat) :
    chain source first (files.length + room) start =
      (chain source first room path).map (files.map (fun e ↦ anchored e.1 e.2.options) ++ ·) := by
  induction h generalizing room with
  | start =>
    rw [List.length_nil, Nat.zero_add]
    cases chain source first room start <;> rfl
  | step _ hread hparent hnext ih =>
    rw [List.length_append, List.length_singleton, Nat.add_assoc, Nat.add_comm 1 room, ih,
      chain_of_names hread hparent hnext]
    cases chain source first room _ with
    | error e => rfl
    | ok rest => simp [Except.map]

/-- Each file of a chain extends the next one, or what the chain leads to. -/
theorem LeadsTo.exists_next {before after : List (Text × ConfigFile)} {p : Text}
    {config : ConfigFile} (h : LeadsTo source start (before ++ (p, config) :: after) path) :
    LeadsTo source start before p ∧ ∃ target next, read source p = .ok config ∧
      config.parent = some target ∧ Names source p target next ∧
      (next ∈ after.map Prod.fst ∨ next = path) := by
  -- A chain grows at its end, so the files are compared from the end, too.
  generalize hfiles : before ++ (p, config) :: after = files at h
  induction h generalizing after with
  | start => exact absurd hfiles (by simp)
  | @step files path target next last h hread hparent hnext ih =>
    rcases List.eq_nil_or_concat after with rfl | ⟨others, e, rfl⟩
    · obtain ⟨rfl, hlast⟩ := List.append_inj' hfiles rfl
      obtain ⟨rfl, rfl⟩ := Prod.mk.inj (List.singleton_inj.mp hlast)
      exact ⟨h, target, next, hread, hparent, hnext, .inr rfl⟩
    · rw [List.concat_eq_append, ← List.cons_append, ← List.append_assoc] at hfiles
      obtain ⟨hfront, hlast⟩ := List.append_inj' hfiles rfl
      obtain rfl := List.singleton_inj.mp hlast
      obtain ⟨hbefore, target', next', hread', hparent', hnext', hmem⟩ := ih hfront
      refine ⟨hbefore, target', next', hread', hparent', hnext', .inl ?_⟩
      rw [List.concat_eq_append, List.map_append, List.mem_append, List.map_singleton,
        List.mem_singleton]
      exact hmem

theorem LeadsTo.exists_take (h : LeadsTo source start files path) {n : Nat}
    (hn : n ≤ files.length) : ∃ p, LeadsTo source start (files.take n) p := by
  rcases Nat.lt_or_eq_of_le hn with hlt | rfl
  · rw [← List.take_append_drop n files, List.drop_eq_getElem_cons hlt] at h
    exact ⟨_, h.exists_next.1⟩
  · rw [List.take_length]
    exact ⟨path, h⟩

/-- A chain has any number of files, or it ends or breaks before. -/
theorem exists_leadsTo (source : ConfigSource) (start : Text) (n : Nat) :
    ∃ files path, LeadsTo source start files path ∧ (files.length = n ∨ files.length < n ∧
      ((∃ config, EndsAt source path config) ∨ ∃ e, BreaksAt source path e)) := by
  induction n with
  | zero => exact ⟨[], start, .start, .inl rfl⟩
  | succ n ih =>
    obtain ⟨files, path, h, hlength | ⟨hlt, hstops⟩⟩ := ih
    · cases hread : read source path with
      | error e =>
        exact ⟨files, path, h, .inr ⟨by omega, .inr ⟨e, .unread hread⟩⟩⟩
      | ok config =>
        cases hparent : config.parent with
        | none => exact ⟨files, path, h, .inr ⟨by omega, .inl ⟨config, hread, hparent⟩⟩⟩
        | some target =>
          by_cases hlost : ∀ next, ¬ Names source path target next
          · exact ⟨files, path, h, .inr ⟨by omega, .inr ⟨_, .lost hread hparent hlost⟩⟩⟩
          · obtain ⟨next, hnext⟩ := Classical.not_forall_not.mp hlost
            exact ⟨_, next, h.step hread hparent hnext, .inl (by simp [hlength])⟩
    · exact ⟨files, path, h, .inr ⟨by omega, hstops⟩⟩

/-! ## Values -/

/-- A base folder that is not absolute, read from the directory of the file at the path. -/
def rebased (path : Text) : Json → Json
  | .string base =>
    if NativePath.isAbsolute base then .string base
    else .string (NativePath.join (NativePath.folder path) base)
  | value => value

/-- The value that the file at the path declares for a key. -/
def declared (path : Text) (config : ConfigFile) (key : Text) : Option Json :=
  (config.options.get? key).map fun value ↦
    if key = CompilerOptions.baseUrlKey then rebased path value else value

theorem declared_baseUrlKey (path : Text) (config : ConfigFile) :
    declared path config CompilerOptions.baseUrlKey =
      (config.options.get? CompilerOptions.baseUrlKey).map (rebased path) := by
  simp only [declared, if_true]

theorem get?_anchored (path : Text) (config : ConfigFile) (key : Text) :
    Json.Fields.get? key (anchored path config.options) = declared path config key := by
  have hsame (h : ∀ value, config.options.get? CompilerOptions.baseUrlKey = some value →
      rebased path value = value) : config.options.get? key = declared path config key := by
    unfold declared
    cases hvalue : config.options.get? key with
    | none => rfl
    | some value =>
      rw [Option.map_some]
      split
      · rename_i hkey
        rw [h value (hkey ▸ hvalue)]
      · rfl
  unfold anchored
  split
  · rename_i base hbase
    split
    · rename_i habsolute
      refine hsame fun value hvalue ↦ ?_
      rw [← Option.some.inj (hbase.symm.trans hvalue), rebased, if_pos habsolute]
    · rename_i hrelative
      rw [Json.Fields.get?_insert, declared]
      by_cases hkey : CompilerOptions.baseUrlKey = key
      · rw [if_pos hkey, ← hkey, hbase, Option.map_some, if_pos rfl, rebased, if_neg hrelative]
      · simp only [if_neg hkey, if_neg (Ne.symm hkey), Option.map_id']
  · rename_i hother
    refine hsame fun value hvalue ↦ ?_
    cases value with
    | string base => exact absurd hvalue (hother base)
    | _ => rfl

theorem ascending_anchored {options : Json.Fields} (h : options.Ascending) (path : Text) :
    (anchored path options).Ascending := by
  unfold anchored
  split
  · split
    · exact h
    · exact h.insert _ _
  · exact h

theorem get?_foldr_override {files : List (Text × ConfigFile)}
    (h : ∀ e ∈ files, e.2.options.Ascending) (key : Text) :
    Json.Fields.get? key ((files.map fun e ↦ anchored e.1 e.2.options).foldr
      (fun own inherited ↦ Json.Fields.override inherited own) []) =
        files.findSome? fun e ↦ declared e.1 e.2 key := by
  induction files with
  | nil => rfl
  | cons e rest ih =>
    obtain ⟨hfirst, hrest⟩ := List.forall_mem_cons.mp h
    rw [List.map_cons, List.foldr_cons,
      Json.Fields.get?_override (ascending_anchored hfirst e.1), get?_anchored, ih hrest,
      List.findSome?_cons]
    cases declared e.1 e.2 key <;> rfl

theorem LeadsTo.ascending (h : LeadsTo source start files path) :
    ∀ e ∈ files, e.2.options.Ascending := by
  intro e he
  obtain ⟨before, after, rfl⟩ := List.append_of_mem he
  obtain ⟨-, _, _, hread, -⟩ := h.exists_next
  exact ascending_of_read hread

end ConfigFile

namespace CompilerOptions

open ConfigFile

/-- What a configuration says of its parent, of strictness and of the base folder. -/
def summary (config : ConfigFile) : Option Text × Option (Option Bool) × Option (Option Text) :=
  (config.parent, (config.options.get? strictKey).map Json.bool?,
    (config.options.get? baseUrlKey).map Json.text?)

theorem exists_read_of_summary (source : ConfigSource) (path : Text)
    (content : Option Text × Option (Option Bool) × Option (Option Text))
    (h : (read source path).toOption.map summary = some content) :
    ∃ config, read source path = .ok config ∧ summary config = content := by
  cases hread : read source path with
  | error e =>
    rw [hread] at h
    exact absurd h (Option.some_ne_none content).symm
  | ok config =>
    rw [hread] at h
    exact ⟨config, rfl, Option.some.inj h⟩

end CompilerOptions

end FencedCode
