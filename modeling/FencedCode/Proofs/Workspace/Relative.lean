import FencedCode.Proofs.Module.Origin
import FencedCode.Proofs.Workspace.Redirect

/-!
# Relative names in written files

A relative name in a written file means a path beside that file. It stands for the first file that
exists when it is asked for, among those that the path may mean, and nothing that was resolved
before makes a difference. So a file that is written at the first of these places is found at once.
-/

namespace FencedCode

/-! ## The places of a path -/

namespace Lookup

/-- The endings that a name may leave out, in the order in which they are tried. -/
def sourceEndings : List Text := [".ts".toList, ".tsx".toList, ".d.ts".toList]

/-- The endings of all files that are modules. -/
def moduleEndings : List Text := sourceEndings ++ [".js".toList, ".jsx".toList, ".json".toList]

/-- A path without the ending `.js` or `.jsx`. -/
def withoutEmitted (path : Text) : Text :=
  if ".js".toList <:+ path then path.take (path.length - 3)
  else if ".jsx".toList <:+ path then path.take (path.length - 4)
  else path

/-- The files that a path may be, in order. -/
def asFile (path : Text) : List Text :=
  (if ∃ ending ∈ moduleEndings, ending <:+ path then [path] else []) ++
    sourceEndings.map (withoutEmitted path ++ ·)

/-- The index files that a folder may have, in order. -/
def asIndex (folder : Text) : List Text := sourceEndings.map (folder ++ "/index".toList ++ ·)

theorem isSome_ofName?_iff {name : Text} :
    (FileKind.ofName? name).isSome ↔ ∃ ending ∈ moduleEndings, ending <:+ name := by
  constructor
  · intro h
    obtain ⟨kind, hkind⟩ := Option.isSome_iff_exists.mp h
    refine ⟨kind.ending, ?_, (FileKind.ofName?_eq_some_iff.mp hkind).suffix⟩
    cases kind <;> decide
  · rintro ⟨ending, hending, hsuffix⟩
    have hkind : ∀ ending ∈ moduleEndings, ∃ kind : FileKind, kind.ending = ending := by
      simp only [moduleEndings, sourceEndings, List.cons_append, List.nil_append,
        List.forall_mem_cons]
      exact ⟨⟨.ts, rfl⟩, ⟨.tsx, rfl⟩, ⟨.declaration, rfl⟩, ⟨.js, rfl⟩, ⟨.jsx, rfl⟩, ⟨.json, rfl⟩,
        fun _ h ↦ absurd h List.not_mem_nil⟩
    obtain ⟨kind, rfl⟩ := hkind ending hending
    exact Option.isSome_iff_exists.mpr (FileKind.exists_ofName?_of_suffix hsuffix)

theorem stripEnd?_of_suffix {tail s : Text} (h : tail <:+ s) :
    Text.stripEnd? tail s = some (s.take (s.length - tail.length)) := by
  obtain ⟨front, rfl⟩ := h
  rw [Text.stripEnd?_eq_some_iff, List.length_append, Nat.add_sub_cancel, List.take_left]

theorem stripEnd?_of_not_suffix {tail s : Text} (h : ¬ tail <:+ s) :
    Text.stripEnd? tail s = none := by
  cases hstrip : Text.stripEnd? tail s with
  | none => rfl
  | some front => exact absurd ⟨front, (Text.stripEnd?_eq_some_iff.mp hstrip).symm⟩ h

theorem stem_eq (path : Text) : stem path = withoutEmitted path := by
  have hjsEnding : FileKind.js.ending = ".js".toList := rfl
  have hjsxEnding : FileKind.jsx.ending = ".jsx".toList := rfl
  rw [stem, withoutEmitted, hjsEnding, hjsxEnding]
  by_cases hjs : ".js".toList <:+ path
  · rw [if_pos hjs, stripEnd?_of_suffix hjs]
    rfl
  · rw [if_neg hjs, stripEnd?_of_not_suffix hjs]
    by_cases hjsx : ".jsx".toList <:+ path
    · rw [if_pos hjsx, stripEnd?_of_suffix hjsx]
      rfl
    · rw [if_neg hjsx, stripEnd?_of_not_suffix hjsx]
      rfl

theorem fileCandidates_eq (path : Text) : fileCandidates path = asFile path := by
  have hself : (if (FileKind.ofName? path).isSome then [path] else []) =
      if ∃ ending ∈ moduleEndings, ending <:+ path then [path] else [] := by
    simp only [isSome_ofName?_iff]
  rw [fileCandidates, hself, stem_eq]
  rfl

theorem indexCandidates_eq (folder : Text) : indexCandidates folder = asIndex folder := rfl

end Lookup

namespace FileView

open Lookup (asFile asIndex)

/-- What the manifest of a folder gives as its types, or else as its typings. -/
def typesOf (v : FileView) (folder : Text) : Option Text :=
  (v.manifest folder).bind fun m ↦ m.types.or m.typings

/-- The files that a path may mean, in the order in which they are tried: the path as a file, and
when it is a folder, what its manifest names, as a file and as a folder, and its index. -/
def places (v : FileView) (path : Text) : List Text :=
  asFile path ++
    if v.folderExists path then
      (match v.typesOf path with
        | some entry => asFile (Path.join path entry) ++ asIndex (Path.join path entry)
        | none => []) ++ asIndex path
    else []

theorem candidates_eq_places (v : FileView) (path : Text) : v.candidates path = v.places path := by
  have htypes : (v.manifest path).bind Lookup.Manifest.entry = v.typesOf path := by
    unfold typesOf
    cases v.manifest path with
    | none => rfl
    | some m =>
      obtain ⟨name, version, types, typings⟩ := m
      cases types <;> rfl
  rw [candidates, places, Lookup.fileCandidates_eq, Lookup.folderCandidates, htypes]
  cases v.typesOf path with
  | none => rfl
  | some entry => simp only [Lookup.fileCandidates_eq, Lookup.indexCandidates_eq]

theorem head?_places (v : FileView) (path : Text) :
    (v.places path).head? = (asFile path).head? := by
  have hne : asFile path ≠ [] := List.append_ne_nil_of_right_ne_nil _ (List.cons_ne_nil _ _)
  rw [places, List.head?_append, List.head?_eq_some_head hne, Option.some_or]

end FileView

namespace Workspace

variable {fs : FileSystem} {w w' : Workspace} {importer name : Text}

/-! ## Written files -/

theorem isVirtual_write {path : Text} (h : w.isVirtual path) (other text : Text) :
    (w.write other text).isVirtual path := by
  show ((w.overlay.write other text).get? path).isSome
  rw [Overlay.get?_write]
  split
  · rfl
  · exact h

theorem fileExists_write (w : Workspace) (fs : FileSystem) (path text : Text) :
    (w.write path text).fileExists fs path := by
  have hwritten : (w.overlay.write path text).contains path := by
    rw [Overlay.contains, Overlay.get?_write, if_pos rfl]
    rfl
  show ((w.overlay.write path text).contains path || _) = true
  rw [hwritten, Bool.true_or]

/-! ## The answer -/

theorem ShowsSame.resolveName_fst_eq (h : ShowsSame fs w w')
    (hredirect : w.redirects.get? name = none) (hredirect' : w'.redirects.get? name = none)
    (hrelative : Path.isRelative name) (hvirtual : w.isVirtual importer) :
    (resolveName fs importer name w').1 = (resolveName fs importer name w).1 := by
  have hvirtual' : w'.isVirtual importer := by rwa [isVirtual, h.overlay]
  rw [resolveName_of_relative hredirect' hrelative hvirtual', h.runLookup_eq,
    resolveName_of_relative hredirect hrelative hvirtual]

/-- A file that is written at the first place is the answer. -/
theorem exists_found_of_write_first {first : Text} {rest : List Text}
    (hredirect : w.redirects.get? name = none) (hrelative : Path.isRelative name)
    (hvirtual : w.isVirtual importer)
    (hplaces : (w.view fs).places (relativeTarget importer name) = first :: rest) (text : Text)
    (fs' : FileSystem) :
    ∃ m, (resolveName fs' importer name (w.write first text)).1 = .ok (some m) ∧
      m.file = first := by
  obtain ⟨found, hfound, hfile, -⟩ := exists_found_of_relative fs' (w := w.write first text)
    hredirect hrelative (isVirtual_write hvirtual first text)
  have hhead : (((w.write first text).view fs').places (relativeTarget importer name)).head? =
      some first := by
    rw [FileView.head?_places, ← FileView.head?_places (w.view fs), hplaces, List.head?_cons]
  obtain ⟨others, hothers⟩ := List.head?_eq_some_iff.mp hhead
  have hexists : ((w.write first text).view fs').fileExists first :=
    w.fileExists_write fs' first text
  rw [FileView.eval_fileOrFolder, FileView.candidates_eq_places, hothers,
    List.find?_cons_of_pos hexists] at hfile
  obtain ⟨m, rfl, hm⟩ := Option.map_eq_some_iff.mp hfile
  exact ⟨m, hfound, hm⟩

/-- A relative name in a written file stands for the first file that exists among those that its
path may mean, alone and in every batch. Workspaces with the same written files, the same files to
check and the same texts read from disk give the same answer, whatever was resolved in them. A file
that is written at the first place is found by the next request, on whatever disk. -/
theorem resolveName_relative (fs : FileSystem) (w : Workspace) (importer name : Text)
    (hredirect : w.redirects.get? name = none) (hrelative : Path.isRelative name)
    (hvirtual : w.isVirtual importer) :
    (∃ found, (resolveName fs importer name w).1 = .ok found ∧
      found.map (·.file) = ((w.view fs).places
        (Path.join (Path.parent (Path.normalize importer)) name)).find? (w.fileExists fs)) ∧
    (∀ (names : List Text) founds (i : Nat),
      (resolveNames fs importer names w).1 = .ok founds → names[i]? = some name →
        ∃ found, (resolveName fs importer name w).1 = .ok found ∧ founds[i]? = some found) ∧
    (∀ w' : Workspace, w'.overlay = w.overlay → w'.scripts = w.scripts → w'.reads = w.reads →
      w'.redirects.get? name = none →
        (resolveName fs importer name w').1 = (resolveName fs importer name w).1) ∧
    ∀ first rest, (w.view fs).places
      (Path.join (Path.parent (Path.normalize importer)) name) = first :: rest →
        ∀ (text : Text) (fs' : FileSystem), ∃ m,
          (resolveName fs' importer name (w.write first text)).1 = .ok (some m) ∧
            m.file = first := by
  refine ⟨?_, ?_, ?_, ?_⟩
  · obtain ⟨found, hfound, hfile, -⟩ := exists_found_of_relative fs hredirect hrelative
      hvirtual
    rw [FileView.eval_fileOrFolder, FileView.candidates_eq_places] at hfile
    exact ⟨found, hfound, hfile⟩
  · intro names founds i hok hi
    obtain ⟨found, middle, hfound, hagrees, hsame, hname⟩ :=
      exists_resolveName_of_resolveNames_ok hok hi
    rw [hsame.resolveName_fst_eq hredirect (hagrees.redirects ▸ hredirect) hrelative hvirtual]
      at hname
    exact ⟨found, hname, hfound⟩
  · intro w' hoverlay hscripts hreads hredirect'
    exact (showsSame_of_eq hoverlay hscripts hreads).resolveName_fst_eq hredirect hredirect'
      hrelative hvirtual
  · intro first rest hfirst text fs'
    exact exists_found_of_write_first hredirect hrelative hvirtual hfirst text fs'

/-- A file that imports a folder whose manifest names its types. -/
def sampleFolder : Workspace :=
  after [.write "/d/a.ts".toList [], .write "/d/lib/x.d.ts".toList [],
    .write "/d/lib/package.json".toList "\x7b\"typings\":\"x\"\x7d".toList,
    .setScripts ["/d/lib/x.d.ts".toList]] (ofOptions .empty Table.empty)

/-- The folder stands for its types until a file is written that comes before it. -/
theorem resolveName_sampleFolder :
    (∃ m, (resolveName .empty "/d/./a.ts".toList "./lib".toList sampleFolder).1 = .ok (some m) ∧
      m.file = "/d/lib/x.d.ts".toList) ∧
    ∃ m, (resolveName .empty "/d/./a.ts".toList "./lib".toList
      (sampleFolder.write "/d/lib.ts".toList [])).1 = .ok (some m) ∧
        m.file = "/d/lib.ts".toList := by
  obtain ⟨⟨found, hfound, hfile⟩, -, -, hwrite⟩ := resolveName_relative .empty sampleFolder
    "/d/./a.ts".toList "./lib".toList (by decide) (by decide) (by decide)
  have hplaces : (sampleFolder.view .empty).places (Path.join (Path.parent (Path.normalize
      "/d/./a.ts".toList)) "./lib".toList) = ["/d/lib.ts", "/d/lib.tsx", "/d/lib.d.ts",
        "/d/lib/x.ts", "/d/lib/x.tsx", "/d/lib/x.d.ts", "/d/lib/x/index.ts", "/d/lib/x/index.tsx",
        "/d/lib/x/index.d.ts", "/d/lib/index.ts", "/d/lib/index.tsx",
        "/d/lib/index.d.ts"].map String.toList := by decide +kernel
  have hfirst : found.map (·.file) = some "/d/lib/x.d.ts".toList := by
    rw [hfile, hplaces]
    decide
  obtain ⟨m, rfl, hm⟩ := Option.map_eq_some_iff.mp hfirst
  exact ⟨⟨m, hfound, hm⟩, hwrite _ _ hplaces [] .empty⟩

end Workspace

end FencedCode
