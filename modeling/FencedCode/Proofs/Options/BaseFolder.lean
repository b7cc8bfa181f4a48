import FencedCode.Proofs.Options.Chain
import FencedCode.Proofs.Path.Place

/-!
# The base folder of loaded options

A base folder is meant from the directory of the file that declares it, and loading writes it down
that way. It is then read once more from the directory of the loaded file. The second reading
changes nothing when this directory is absolute or the current one. Otherwise the base folder leads
to another place, unless it leads up out of all that the directory adds to the current one.
-/

namespace FencedCode

theorem CompilerOptions.baseUrl_eq_map_join (options : CompilerOptions) :
    options.baseUrl = ((options.get? baseUrlKey).bind Json.text?).map
      (NativePath.join (options.configFolder.getD [])) := by
  unfold baseUrl
  cases options.configFolder with
  | some folder => rfl
  | none =>
    congr 1
    funext base
    exact (NativePath.join_nil base).symm

namespace ConfigFile

open NativePath (place)

variable {source : ConfigSource} {start path base : Text} {files : List (Text × ConfigFile)}
  {options : CompilerOptions}

/-- The files are the whole chain that begins at `start`. -/
def IsChain (source : ConfigSource) (start : Text) (files : List (Text × ConfigFile)) : Prop :=
  ∃ before path config, LeadsTo source start before path ∧ EndsAt source path config ∧
    files = before ++ [(path, config)]

theorem IsChain.ascending (h : IsChain source start files) :
    ∀ e ∈ files, e.2.options.Ascending := by
  obtain ⟨before, path, config, hleads, hends, rfl⟩ := h
  intro e he
  rcases List.mem_append.mp he with he | he
  · exact hleads.ascending e he
  · rw [List.mem_singleton.mp he]
    exact ascending_of_read hends.1

theorem IsChain.chain_eq (h : IsChain source start files) (hlength : files.length ≤ 32) :
    chain source start 32 start = .ok (files.map fun e ↦ anchored e.1 e.2.options) := by
  obtain ⟨before, path, config, hleads, hends, rfl⟩ := h
  rw [List.length_append, List.length_singleton] at hlength
  have hchain := hleads.chain_eq start (32 - before.length - 1 + 1)
  rw [hends.chain_eq, show before.length + (32 - before.length - 1 + 1) = 32 by omega] at hchain
  rw [hchain, List.map_append, List.map_singleton]
  rfl

theorem IsChain.exists_load (h : IsChain source start files) (hlength : files.length ≤ 32) :
    ∃ options, CompilerOptions.load source start = .ok options := by
  rw [CompilerOptions.load, maxChain, h.chain_eq hlength]
  exact ⟨_, rfl⟩

theorem exists_chain_eq_of_load (hload : CompilerOptions.load source start = .ok options) :
    ∃ values, chain source start 32 start = .ok values ∧
      options = ⟨values.foldr (fun own inherited ↦ Json.Fields.override inherited own) [],
        NativePath.parent? start⟩ := by
  rw [CompilerOptions.load, maxChain] at hload
  cases hchain : chain source start 32 start with
  | error e =>
    rw [hchain] at hload
    exact absurd hload (by simp [bind, Except.bind])
  | ok values =>
    rw [hchain] at hload
    exact ⟨values, rfl, (Except.ok.inj hload).symm⟩

theorem LeadsTo.length_lt_of_load (h : LeadsTo source start files path)
    (hload : CompilerOptions.load source start = .ok options) : files.length < 32 := by
  obtain ⟨values, hvalues, -⟩ := exists_chain_eq_of_load hload
  by_contra hlong
  obtain ⟨p, htake⟩ := h.exists_take (Nat.le_of_not_lt hlong)
  have hchain := htake.chain_eq start 0
  rw [List.length_take_of_le (Nat.le_of_not_lt hlong), hvalues] at hchain
  exact absurd hchain (by simp [chain, Except.map])

/-- Options are loaded from a chain that ends. -/
theorem exists_isChain_of_load (hload : CompilerOptions.load source start = .ok options) :
    ∃ files, IsChain source start files := by
  obtain ⟨files, path, hleads, hstops⟩ := exists_leadsTo source start 32
  have hlength := hleads.length_lt_of_load hload
  rcases hstops with hlong | ⟨-, ⟨config, hends⟩ | ⟨e, hbreaks⟩⟩
  · exact absurd hlong (Nat.ne_of_lt hlength)
  · exact ⟨_, files, path, config, hleads, hends, rfl⟩
  · obtain ⟨values, hvalues, -⟩ := exists_chain_eq_of_load hload
    have hchain := hleads.chain_eq start (32 - files.length - 1 + 1)
    rw [hbreaks.chain_eq, show files.length + (32 - files.length - 1 + 1) = 32 by omega,
      hvalues] at hchain
    exact absurd hchain (by simp [Except.map])

theorem IsChain.get?_of_load (h : IsChain source start files)
    (hload : CompilerOptions.load source start = .ok options) :
    options.configFolder = NativePath.parent? start ∧
      ∀ key, options.get? key = files.findSome? fun e ↦ declared e.1 e.2 key := by
  have hlength : files.length ≤ 32 := by
    obtain ⟨before, path, config, hleads, -, rfl⟩ := h
    rw [List.length_append, List.length_singleton]
    exact hleads.length_lt_of_load hload
  obtain ⟨values, hvalues, rfl⟩ := exists_chain_eq_of_load hload
  obtain rfl := Except.ok.inj (hvalues.symm.trans (h.chain_eq hlength))
  exact ⟨rfl, get?_foldr_override h.ascending⟩

/-! ## The file that declares the base folder -/

/-- The first file that declares a base folder is the one at the path, and it declares this one. -/
def DeclaresFirst (files : List (Text × ConfigFile)) (path base : Text) : Prop :=
  ∃ before config after, files = before ++ (path, config) :: after ∧
    config.options.get? CompilerOptions.baseUrlKey = some (.string base) ∧
    ∀ e ∈ before, e.2.options.get? CompilerOptions.baseUrlKey = none

theorem rebased_string (path base : Text) :
    rebased path (.string base) = .string (NativePath.join (NativePath.folder path) base) := by
  simp only [rebased]
  split
  · rename_i habsolute
    rw [NativePath.join, if_pos habsolute]
  · rfl

theorem text?_rebased_isSome (path : Text) (value : Json) :
    (rebased path value).text?.isSome = value.text?.isSome := by
  cases value with
  | string base => rw [rebased_string]; rfl
  | _ => rfl

theorem declared_baseUrlKey_eq_none_iff {config : ConfigFile} :
    declared path config CompilerOptions.baseUrlKey = none ↔
      config.options.get? CompilerOptions.baseUrlKey = none := by
  rw [declared_baseUrlKey, Option.map_eq_none_iff]

theorem DeclaresFirst.findSome?_declared (h : DeclaresFirst files path base) :
    (files.findSome? fun e ↦ declared e.1 e.2 CompilerOptions.baseUrlKey) =
      some (.string (NativePath.join (NativePath.folder path) base)) := by
  obtain ⟨before, config, after, rfl, hvalue, hbefore⟩ := h
  refine List.findSome?_eq_some_iff.mpr ⟨before, (path, config), after, rfl, ?_, fun e he ↦ ?_⟩
  · rw [declared_baseUrlKey, hvalue, Option.map_some, rebased_string]
  · exact declared_baseUrlKey_eq_none_iff.mpr (hbefore e he)

theorem exists_declaresFirst {value : Json} (htext : value.text?.isSome)
    (h : (files.findSome? fun e ↦ declared e.1 e.2 CompilerOptions.baseUrlKey) = some value) :
    ∃ path base, DeclaresFirst files path base := by
  obtain ⟨before, ⟨path, config⟩, after, hfiles, hvalue, hbefore⟩ :=
    List.findSome?_eq_some_iff.mp h
  rw [declared_baseUrlKey] at hvalue
  obtain ⟨own, hown, rfl⟩ := Option.map_eq_some_iff.mp hvalue
  rw [text?_rebased_isSome] at htext
  cases own with
  | string base =>
    exact ⟨path, base, before, config, after, hfiles, hown,
      fun e he ↦ declared_baseUrlKey_eq_none_iff.mp (hbefore e he)⟩
  | _ => exact absurd htext (by simp [Json.text?])

/-- The directory of the loaded file stands in front of the one of the declaring file. -/
theorem DeclaresFirst.baseUrl_eq (h : DeclaresFirst files path base)
    (hchain : IsChain source start files)
    (hload : CompilerOptions.load source start = .ok options) :
    options.baseUrl = some (NativePath.join ((NativePath.parent? start).getD [])
      (NativePath.join (NativePath.folder path) base)) := by
  obtain ⟨hfolder, hget⟩ := hchain.get?_of_load hload
  rw [CompilerOptions.baseUrl_eq_map_join, hget, h.findSome?_declared, Option.bind_some, Json.text?,
    Option.map_some, hfolder]

theorem IsChain.baseUrl_isSome_iff (h : IsChain source start files)
    (hload : CompilerOptions.load source start = .ok options) :
    options.baseUrl.isSome ↔ ∃ path base, DeclaresFirst files path base := by
  constructor
  · intro hsome
    rw [CompilerOptions.baseUrl, Option.isSome_map, (h.get?_of_load hload).2] at hsome
    cases hvalue : files.findSome? fun e ↦ declared e.1 e.2 CompilerOptions.baseUrlKey with
    | none =>
      rw [hvalue] at hsome
      exact absurd hsome (by decide)
    | some value =>
      rw [hvalue, Option.bind_some] at hsome
      exact exists_declaresFirst hsome hvalue
  · rintro ⟨path, base, hfirst⟩
    rw [hfirst.baseUrl_eq h hload]
    rfl

/-! ## Places -/

theorem mem_withExtension (target : Text) : 'j' ∈ withExtension target := by
  unfold withExtension
  split
  · rename_i hsuffix
    exact (List.isSuffixOf_iff_suffix.mp hsuffix).subset (by decide)
  · exact List.mem_append_right target (by decide)

/-- What a file in an absolute directory extends is in an absolute directory, too. -/
theorem Names.isAbsolute_folder {target next : Text} (h : Names source path target next)
    (hpath : NativePath.isAbsolute (NativePath.folder path)) :
    NativePath.isAbsolute (NativePath.folder next) := by
  cases h with
  | file _ =>
    exact NativePath.isAbsolute_folder (NativePath.isAbsolute_join hpath _)
      (NativePath.mem_join (mem_withExtension target) _) (by decide) (by decide)
  | @package _ nearer farther ancestor hancestors _ _ =>
    have hmem : ancestor ∈ NativePath.ancestors (NativePath.folder path) := by
      rw [hancestors]
      exact List.mem_append_right nearer List.mem_cons_self
    have hancestor := NativePath.isAbsolute_of_mem_ancestors hpath hmem
    have hletter : 'j' ∈ if IsPackageName target then target ++ "/tsconfig.json".toList
        else withExtension target := by
      split
      · exact List.mem_append_right target (by decide)
      · exact mem_withExtension target
    exact NativePath.isAbsolute_folder
      (NativePath.isAbsolute_join (NativePath.isAbsolute_join hancestor _) _)
      (NativePath.mem_join hletter _) (by decide) (by decide)

theorem LeadsTo.isAbsolute_folder (h : LeadsTo source start files path)
    (hstart : NativePath.isAbsolute (NativePath.folder start)) :
    NativePath.isAbsolute (NativePath.folder path) := by
  induction h with
  | start => exact hstart
  | step _ _ _ hnext ih => exact hnext.isAbsolute_folder ih

theorem IsChain.leadsTo_of_mem (h : IsChain source start files) {config : ConfigFile}
    (hmem : (path, config) ∈ files) : ∃ before, LeadsTo source start before path := by
  obtain ⟨before, last, lastConfig, hleads, -, rfl⟩ := h
  rcases List.mem_append.mp hmem with hmem | hmem
  · obtain ⟨front, back, rfl⟩ := List.append_of_mem hmem
    exact ⟨front, hleads.exists_next.1⟩
  · obtain ⟨rfl, -⟩ := Prod.mk.inj (List.mem_singleton.mp hmem)
    exact ⟨before, hleads⟩

/-- From an absolute path, the base folder leads where it was meant to. -/
theorem DeclaresFirst.place_of_isAbsolute (h : DeclaresFirst files path base)
    (hchain : IsChain source start files) (hstart : NativePath.isAbsolute start)
    (current : List Text) :
    place current (NativePath.join ((NativePath.parent? start).getD [])
        (NativePath.join (NativePath.folder path) base)) =
      place current (NativePath.join (NativePath.folder path) base) := by
  cases hparent : NativePath.parent? start with
  | none => rw [Option.getD_none, NativePath.join_nil]
  | some folder =>
    have hfolder : NativePath.isAbsolute (NativePath.folder start) := by
      rw [NativePath.folder, hparent]
      exact NativePath.isAbsolute_of_mem_parents hstart (List.mem_of_mem_head? hparent)
    obtain ⟨before, config, after, hfiles, -, -⟩ := h
    obtain ⟨front, hleads⟩ := hchain.leadsTo_of_mem
      (hfiles ▸ List.mem_append_right before List.mem_cons_self)
    have hpath := hleads.isAbsolute_folder hfolder
    rw [NativePath.place_join]
    exact NativePath.place_of_isAbsolute (NativePath.isAbsolute_join hpath base) _ _

end ConfigFile

namespace CompilerOptions

open ConfigFile
open NativePath (place)

/-- The base folder is the one that the first declaring file names, and it is known when there is
such a file. It leads where the declared folder leads from the directory of this file whenever the
loaded path is absolute. When the path is not, the base folder leads there exactly if it is absolute
or goes up out of all that the directory of the loaded file adds to the current one. -/
theorem place_baseUrl_of_load {source : ConfigSource} {start : Text} {options : CompilerOptions}
    (hload : load source start = .ok options) :
    (∃ files, IsChain source start files) ∧ ∀ files, IsChain source start files →
      (options.baseUrl.isSome ↔ ∃ path base, DeclaresFirst files path base) ∧
      ∀ path base, DeclaresFirst files path base → ∃ url, options.baseUrl = some url ∧
        (NativePath.isAbsolute start → ∀ current,
          place current url = place current (NativePath.join (NativePath.folder path) base)) ∧
        ∀ current, Path.dotDot ∉ current →
          (place current url = place current (NativePath.join (NativePath.folder path) base) ↔
            NativePath.isAbsolute (NativePath.join (NativePath.folder path) base) ∨
            ∃ up down,
              Path.Leads ((NativePath.join (NativePath.folder path) base).splitOn '/') up down ∧
              (place current ((NativePath.parent? start).getD [])).drop up = current.drop up) := by
  refine ⟨exists_isChain_of_load hload, ?_⟩
  intro files hchain
  refine ⟨hchain.baseUrl_isSome_iff hload, ?_⟩
  intro path base hfirst
  refine ⟨_, hfirst.baseUrl_eq hchain hload, ?_, ?_⟩
  · exact hfirst.place_of_isAbsolute hchain
  · intro current hcurrent
    exact NativePath.place_join_eq_iff hcurrent _ _

/-- A disk with a configuration in a subfolder, and one that extends another one further down. -/
def nestedSource : ConfigSource where
  readText path :=
    if path = "/d/tsconfig.json".toList then .ok "\x7b\"extends\": \"./cfg/base\"\x7d".toList
    else if path = "docs/tsconfig.json".toList ∨ path = "/d/./cfg/base.json".toList then
      .ok "\x7b\"compilerOptions\": \x7b\"baseUrl\": \"src\"\x7d\x7d".toList
    else .error .missing
  isFile _ := false

theorem exists_read_nestedSource {path : Text}
    (h : path = "docs/tsconfig.json".toList ∨ path = "/d/./cfg/base.json".toList) :
    ∃ config, EndsAt nestedSource path config ∧
      config.options.get? baseUrlKey = some (.string "src".toList) := by
  have hcontent : (read nestedSource path).toOption.map summary =
      some (none, none, some (some "src".toList)) := by
    rcases h with rfl | rfl
    · decide +kernel
    · decide +kernel
  obtain ⟨config, hread, hsummary⟩ := exists_read_of_summary nestedSource path _ hcontent
  simp only [summary, Prod.mk.injEq, Option.map_eq_some_iff, Option.map_eq_none_iff] at hsummary
  obtain ⟨hparent, -, ⟨value, hvalue, htext⟩⟩ := hsummary
  refine ⟨config, ⟨hread, hparent⟩, ?_⟩
  cases value with
  | string text => rw [hvalue, Option.some.inj htext]
  | _ => exact absurd htext (by simp [Json.text?])

/-- The base folder of an absolute path, declared in a file further down. -/
theorem place_baseUrl_nestedSource : ∃ options url,
    load nestedSource "/d/tsconfig.json".toList = .ok options ∧ options.baseUrl = some url ∧
      ∀ current, place current url = ["src".toList, "cfg".toList, "d".toList] := by
  obtain ⟨first, hread, hsummary⟩ := exists_read_of_summary nestedSource
    "/d/tsconfig.json".toList (some "./cfg/base".toList, none, none) (by decide +kernel)
  simp only [summary, Prod.mk.injEq, Option.map_eq_none_iff] at hsummary
  obtain ⟨hparent, -, hnone⟩ := hsummary
  obtain ⟨base, hends, hbase⟩ := exists_read_nestedSource (.inr rfl)
  have hnames : Names nestedSource "/d/tsconfig.json".toList "./cfg/base".toList
      "/d/./cfg/base.json".toList := .file (.inl (by decide))
  have hchain : IsChain nestedSource "/d/tsconfig.json".toList
      [("/d/tsconfig.json".toList, first), ("/d/./cfg/base.json".toList, base)] :=
    ⟨_, _, base, .step .start hread hparent hnames, hends, rfl⟩
  have hfirst : DeclaresFirst
      [("/d/tsconfig.json".toList, first), ("/d/./cfg/base.json".toList, base)]
      "/d/./cfg/base.json".toList "src".toList :=
    ⟨[_], base, [], rfl, hbase, List.forall_mem_singleton.mpr hnone⟩
  obtain ⟨options, hload⟩ := hchain.exists_load (by simp)
  obtain ⟨url, hurl, hplace, -⟩ :=
    ((place_baseUrl_of_load hload).2 _ hchain).2 _ _ hfirst
  exact ⟨options, url, hload, hurl, fun current ↦ (hplace (by decide) current).trans rfl⟩

/-- The folder `docs` stands twice in the base folder of a file in it. -/
theorem baseUrl_nestedSource : ∃ config options,
    IsChain nestedSource "docs/tsconfig.json".toList [("docs/tsconfig.json".toList, config)] ∧
    DeclaresFirst [("docs/tsconfig.json".toList, config)] "docs/tsconfig.json".toList
      "src".toList ∧
    load nestedSource "docs/tsconfig.json".toList = .ok options ∧
    options.baseUrl = some "docs/docs/src".toList ∧
    ∀ current, place current "docs/docs/src".toList ≠
      place current (NativePath.join (NativePath.folder "docs/tsconfig.json".toList)
        "src".toList) := by
  obtain ⟨config, hends, hbase⟩ := exists_read_nestedSource (.inl rfl)
  have hchain : IsChain nestedSource "docs/tsconfig.json".toList
      [("docs/tsconfig.json".toList, config)] := ⟨[], _, config, .start, hends, rfl⟩
  have hfirst : DeclaresFirst [("docs/tsconfig.json".toList, config)]
      "docs/tsconfig.json".toList "src".toList :=
    ⟨[], config, [], rfl, hbase, fun _ he ↦ absurd he List.not_mem_nil⟩
  obtain ⟨options, hload⟩ := hchain.exists_load (by simp)
  refine ⟨config, options, hchain, hfirst, hload, ?_, fun current hplace ↦ ?_⟩
  · rw [hfirst.baseUrl_eq hchain hload]
    decide
  · -- One of the places is a folder deeper than the other.
    have hfolders : "src".toList :: "docs".toList :: "docs".toList :: current =
        "src".toList :: "docs".toList :: current := hplace
    exact absurd (congrArg List.length hfolders) (by simp)

end CompilerOptions

end FencedCode
